import Stencil.Listing.Basic
import Stencil.Proofs.Emit.Denotation

/-!
# The depth of operations

A listing indents an operation by a count of open elements, which goes up behind an operation that
opens an element and down in front of one that ends it. The count knows nothing of the forest, and
where no element is open it would stay at zero instead of going down. The operations of a forest
never get there: each one that ends an element has the element in front of it. So the count is the
number of elements around an operation in the forest.

## Main definitions

* `Op.endsElement`, `Op.isStill`: the operations that end an element, and those that change no depth
* `shownFrom`: operations with the depths at which a listing shows them
* `Settled`: operations that end the elements which they open, and no others
* `denoteAt`, `denoteAllAt`: the operations of a node with their depths in the forest

## Main results

* `codeLines_eq_map`: the lines of operations, by their numbers and depths
* `Settled.element`: an element around settled operations
* `settled_denoteAll`: **the operations of a forest end the elements which they open**
* `shownFrom_denoteAll`: **a listing shows operations at their depths in the forest**
-/

namespace Stencil

open Stencil.Markup

/-- Whether an operation ends an element. -/
def Op.endsElement : Op → Bool
  | tagClose | selfClosing => true
  | _ => false

/-- Whether an operation opens and ends no element. -/
def Op.isStill : Op → Bool
  | tagOpen _ | tagClose | selfClosing => false
  | _ => true

namespace Listing

/-! ## Depths in a listing -/

/-- Operations with the depths at which a listing shows them, with `depth` elements open. -/
def shownFrom : Nat → List Op → List (Nat × Op)
  | _, [] => []
  | depth, op :: rest => (depthOf depth op, op) :: shownFrom (depthAfter depth op) rest

theorem shownFrom_append (depth : Nat) (ops ops' : List Op) :
    shownFrom depth (ops ++ ops') =
      shownFrom depth ops ++ shownFrom (ops.foldl depthAfter depth) ops' := by
  induction ops generalizing depth with
  | nil => rfl
  | cons op ops ih => exact congrArg _ (ih _)

theorem length_shownFrom (depth : Nat) (ops : List Op) :
    (shownFrom depth ops).length = ops.length := by
  induction ops generalizing depth with
  | nil => rfl
  | cons op ops ih => exact congrArg (· + 1) (ih _)

/-- **The lines of operations, by their numbers and depths.** -/
theorem codeLines_eq_map (p : Palette) (width index depth : Nat) (ops : List Op) :
    codeLines p width index depth ops =
      ((shownFrom depth ops).zipIdx index).map fun x => codeLine p width x.2 x.1.1 x.1.2 := by
  induction ops generalizing index depth with
  | nil => rfl
  | cons op ops ih => exact congrArg _ (ih _ _)

section Steps

variable {op : Op}

theorem depthAfter_of_isStill (h : op.isStill = true) (depth : Nat) :
    depthAfter depth op = depth := by
  cases op with
  | tagOpen | tagClose | selfClosing => cases h
  | _ => rfl

theorem depthOf_of_isStill (h : op.isStill = true) (depth : Nat) : depthOf depth op = depth := by
  cases op with
  | tagOpen | tagClose | selfClosing => cases h
  | _ => rfl

theorem endsElement_of_isStill (h : op.isStill = true) : op.endsElement = false := by
  cases op with
  | tagOpen | tagClose | selfClosing => cases h
  | _ => rfl

theorem depthAfter_of_endsElement (h : op.endsElement = true) (depth : Nat) :
    depthAfter depth op = depth - 1 := by
  cases op with
  | tagClose | selfClosing => rfl
  | _ => cases h

theorem depthOf_of_endsElement (h : op.endsElement = true) (depth : Nat) :
    depthOf depth op = depth - 1 := by
  cases op with
  | tagClose | selfClosing => rfl
  | _ => cases h

end Steps

/-! ## Settled operations -/

/-- Operations that end the elements which they open, and no others. -/
structure Settled (ops : List Op) : Prop where
  /-- Where an element is ended, one is open. -/
  pos_of_ends : ∀ depth before op behind, ops = before ++ op :: behind → op.endsElement = true →
    0 < before.foldl depthAfter depth
  /-- In the end as many elements are open as before. -/
  foldl_eq : ∀ depth, ops.foldl depthAfter depth = depth

namespace Settled

variable {ops ops' : List Op}

theorem nil : Settled [] where
  pos_of_ends := by
    intro depth before op behind hops
    exact absurd hops (by simp)
  foldl_eq _ := rfl

theorem append (h : Settled ops) (h' : Settled ops') : Settled (ops ++ ops') where
  pos_of_ends := by
    intro depth before op behind hops hends
    rcases List.append_eq_append_iff.mp hops with ⟨front, rfl, hback⟩ | ⟨back, rfl, hfront⟩
    · rw [List.foldl_append, h.foldl_eq]
      exact h'.pos_of_ends depth front op behind hback hends
    · cases back with
      | nil => exact h'.pos_of_ends _ [] op behind (by simpa using hfront.symm) hends
      | cons x back =>
        cases hfront
        exact h.pos_of_ends depth before op back rfl hends
  foldl_eq := by
    intro depth
    rw [List.foldl_append, h.foldl_eq, h'.foldl_eq]

/-- Operations that change no depth. -/
theorem of_isStill (h : ∀ op ∈ ops, op.isStill = true) : Settled ops where
  pos_of_ends := by
    intro depth before op behind hops hends
    have hop : op ∈ ops := hops ▸ List.mem_append_right _ (List.mem_cons_self ..)
    rw [endsElement_of_isStill (h op hop)] at hends
    cases hends
  foldl_eq := by
    intro depth
    induction ops with
    | nil => rfl
    | cons op ops ih =>
      obtain ⟨hop, hops⟩ := List.forall_mem_cons.mp h
      rw [List.foldl_cons, depthAfter_of_isStill hop, ih hops]

/-- **An element around settled operations**: where it ends, it is open itself. -/
theorem element (h : Settled ops) (tag : String) {stop : Op} (hstop : stop.endsElement = true) :
    Settled (.tagOpen tag :: (ops ++ [stop])) where
  pos_of_ends := by
    intro depth before op behind hops hends
    cases before with
    | nil =>
      cases hops
      cases hends
    | cons x before =>
      obtain ⟨rfl, hrest⟩ := List.cons.inj hops
      show 0 < before.foldl depthAfter (depth + 1)
      rcases List.append_eq_append_iff.mp hrest with ⟨front, rfl, hback⟩ | ⟨back, rfl, hfront⟩
      · cases front with
        | nil =>
          rw [List.append_nil, h.foldl_eq]
          exact Nat.succ_pos depth
        | cons y front =>
          have hlength := congrArg List.length hback
          simp at hlength
      · cases back with
        | nil =>
          have hfoldl := h.foldl_eq (depth + 1)
          rw [List.append_nil] at hfoldl
          rw [hfoldl]
          exact Nat.succ_pos depth
        | cons y back =>
          cases hfront
          exact h.pos_of_ends (depth + 1) before op back rfl hends
  foldl_eq := by
    intro depth
    rw [List.foldl_cons, List.foldl_append, h.foldl_eq, List.foldl_cons, List.foldl_nil,
      depthAfter_of_endsElement hstop]
    rfl

end Settled

/-! ## The operations of a forest -/

theorem isStill_attributeOp (a : Attribute) : (attributeOp a).isStill = true := by
  rw [attributeOp]
  cases Binding.classify a.name a.value <;> rfl

theorem isStill_segmentOp (s : Segment) : (segmentOp s).isStill = true := by
  cases s <;> rfl

theorem endsElement_endOp (c : Config) (tag : String) : (endOp c tag).endsElement = true := by
  unfold endOp
  split <;> rfl

mutual

/-- The operations of a node end the elements which they open. -/
theorem settled_denote (c : Config) : ∀ node : Node, Settled (denote c node)
  | .element t children => by
    have hattributes : Settled (t.attributes.map attributeOp) :=
      .of_isStill (List.forall_mem_map.mpr fun a _ => isStill_attributeOp a)
    have hend := endsElement_endOp c (normalTag c t.name)
    rw [denote, List.cons_append, List.cons_append]
    cases isVoid (normalTag c t.name) with
    | true => exact (hattributes.append .nil).element _ hend
    | false => exact (hattributes.append (settled_denoteAll c children)).element _ hend
  | .text _ _ => .of_isStill (List.forall_mem_map.mpr fun s _ => isStill_segmentOp s)
  | .comment _ _ => .nil
  | .other _ _ _ => .nil

/-- **The operations of a forest end the elements which they open.** -/
theorem settled_denoteAll (c : Config) : ∀ nodes : List Node, Settled (denoteAll c nodes)
  | [] => .nil
  | node :: rest => (settled_denote c node).append (settled_denoteAll c rest)

end

mutual

/-- The operations of a node with their depths, if `depth` elements are around it. The operations
that open and end an element stand outside it, its attributes and its children inside. -/
def denoteAt (c : Config) (depth : Nat) : Node → List (Nat × Op)
  | .element t children =>
    (depth, .tagOpen (normalTag c t.name)) ::
        t.attributes.map (fun a => (depth + 1, attributeOp a))
      ++ (if isVoid (normalTag c t.name) then [] else denoteAllAt c (depth + 1) children)
      ++ [(depth, endOp c (normalTag c t.name))]
  | .text s _ => (Placeholder.textSegments s).map fun segment => (depth, segmentOp segment)
  | .comment _ _ => []
  | .other _ _ _ => []

/-- The operations of a forest with their depths, if `depth` elements are around it. -/
def denoteAllAt (c : Config) (depth : Nat) : List Node → List (Nat × Op)
  | [] => []
  | node :: rest => denoteAt c depth node ++ denoteAllAt c depth rest

end

/-- Operations that change no depth are all shown at the same. -/
theorem shownFrom_of_isStill {ops : List Op} (h : ∀ op ∈ ops, op.isStill = true) (depth : Nat) :
    shownFrom depth ops = ops.map (depth, ·) := by
  induction ops with
  | nil => rfl
  | cons op ops ih =>
    obtain ⟨hop, hops⟩ := List.forall_mem_cons.mp h
    rw [shownFrom, depthAfter_of_isStill hop, depthOf_of_isStill hop, ih hops, List.map_cons]

/-- An element is shown around what is in it. -/
theorem shownFrom_element {ops : List Op} (h : Settled ops) (tag : String) {stop : Op}
    (hstop : stop.endsElement = true) (depth : Nat) :
    shownFrom depth (.tagOpen tag :: (ops ++ [stop])) =
      (depth, .tagOpen tag) :: (shownFrom (depth + 1) ops ++ [(depth, stop)]) := by
  have hlast : shownFrom (depth + 1) [stop] = [(depth, stop)] := by
    rw [shownFrom, depthOf_of_endsElement hstop]
    rfl
  rw [shownFrom, shownFrom_append]
  show _ :: (shownFrom (depth + 1) ops ++ shownFrom (ops.foldl depthAfter (depth + 1)) [stop]) = _
  rw [h.foldl_eq, hlast]
  rfl

mutual

/-- A listing shows the operations of a node at their depths in the forest. -/
theorem shownFrom_denote (c : Config) (depth : Nat) : ∀ node : Node,
    shownFrom depth (denote c node) = denoteAt c depth node
  | .element t children => by
    have hstill : ∀ op ∈ t.attributes.map attributeOp, op.isStill = true :=
      List.forall_mem_map.mpr fun a _ => isStill_attributeOp a
    have hattributes : shownFrom (depth + 1) (t.attributes.map attributeOp) =
        t.attributes.map fun a => (depth + 1, attributeOp a) := by
      rw [shownFrom_of_isStill hstill, List.map_map]
      rfl
    have hend := endsElement_endOp c (normalTag c t.name)
    rw [denote, denoteAt, List.cons_append, List.cons_append, List.cons_append, List.cons_append]
    cases isVoid (normalTag c t.name) with
    | true =>
      rw [if_pos rfl, if_pos rfl, List.append_nil, List.append_nil,
        shownFrom_element (.of_isStill hstill) _ hend, hattributes]
    | false =>
      have hinner := (Settled.of_isStill hstill).append (settled_denoteAll c children)
      rw [if_neg Bool.false_ne_true, if_neg Bool.false_ne_true, shownFrom_element hinner _ hend,
        shownFrom_append, (Settled.of_isStill hstill).foldl_eq, hattributes,
        shownFrom_denoteAll c (depth + 1) children]
  | .text s _ => by
    rw [denote, denoteAt,
      shownFrom_of_isStill (List.forall_mem_map.mpr fun s _ => isStill_segmentOp s), List.map_map]
    rfl
  | .comment _ _ => rfl
  | .other _ _ _ => rfl

/-- **A listing shows the operations of a forest at their depths in it**: at the number of elements
around each of them. -/
theorem shownFrom_denoteAll (c : Config) (depth : Nat) : ∀ nodes : List Node,
    shownFrom depth (denoteAll c nodes) = denoteAllAt c depth nodes
  | [] => rfl
  | node :: rest => by
    rw [denoteAll, denoteAllAt, shownFrom_append, (settled_denote c node).foldl_eq,
      shownFrom_denote c depth node, shownFrom_denoteAll c depth rest]

end

/-- The operations without their depths. -/
theorem map_snd_denoteAllAt (c : Config) (depth : Nat) (nodes : List Node) :
    (denoteAllAt c depth nodes).map Prod.snd = denoteAll c nodes := by
  rw [← shownFrom_denoteAll]
  generalize denoteAll c nodes = ops
  induction ops generalizing depth with
  | nil => rfl
  | cons op ops ih => rw [shownFrom, List.map_cons, ih]

end Listing

end Stencil
