import Stencil.Proofs.Emit.Canonical

/-!
# Replaying a template

A renderer replays the operations of a template on a stack of open elements. An operation that
opens a tag puts an element on the stack, attributes and events are attached to the topmost
element, text becomes its latest child, and an operation that closes takes the topmost element off
the stack and gives it to the one below. Nothing in the operations says which element is the parent
of which; it shows in the replay only. On the operations of a compiled forest the replay does not
fail, and it builds the forest as the compiler understands it.

## Main definitions

* `Rendered`: what a renderer builds
* `Stage`, `Stage.step`, `Stage.run`: the stack of open elements, and what operations do to it
* `normal`, `normalAll`: a node and a forest as the compiler understands them
* `Stage.Plays`: operations that are replayed, and attach nothing behind a child

## Main results

* `Stage.Plays.append`: operations behind others are replayed behind them
* `plays_denote`, `plays_denoteAll`: the operations of a node add what the node is understood as
* `run_read_compile`: **replaying a compiled forest rebuilds it**
-/

namespace Stencil

open Stencil.Markup Stencil.Wire

/-! ## The renderer -/

/-- What a renderer builds: an element with what is bound to it and its children, or a piece of
text. -/
inductive Rendered where
  | element (tag : String) (bindings : List Binding) (children : List Rendered)
  | text (segment : Segment)
  deriving Repr

/-- An element that is open, with what was bound to it and its children so far. -/
structure Shell where
  tag : String
  bindings : List Binding := []
  children : List Rendered := []
  deriving Repr

/-- What was built at the top level so far, and the elements that are open, topmost first. -/
structure Stage where
  roots : List Rendered := []
  stack : List Shell := []
  deriving Repr

namespace Stage

/-- Adds a child to the topmost element, or to the top level. -/
def add (s : Stage) (r : Rendered) : Stage :=
  match s.stack with
  | [] => { s with roots := s.roots ++ [r] }
  | shell :: rest => { s with stack := { shell with children := shell.children ++ [r] } :: rest }

/-- Puts a new element on the stack. -/
def enter (s : Stage) (tag : String) : Stage :=
  { s with stack := { tag } :: s.stack }

/-- Binds something to the topmost element, if there is one. -/
def attach (s : Stage) (b : Binding) : Option Stage :=
  match s.stack with
  | [] => none
  | shell :: rest =>
    some { s with stack := { shell with bindings := shell.bindings ++ [b] } :: rest }

/-- Takes the topmost element off the stack, if there is one, and adds it to the one below. -/
def leave (s : Stage) : Option Stage :=
  match s.stack with
  | [] => none
  | shell :: rest =>
    some ({ s with stack := rest }.add (.element shell.tag shell.bindings shell.children))

/-- What an operation does. It fails only if it needs an open element and there is none. -/
def step (s : Stage) : Op → Option Stage
  | .tagOpen tag => some (s.enter tag)
  | .tagClose | .selfClosing => s.leave
  | .text t => some (s.add (.text (.static t)))
  | .dynText field => some (s.add (.text (.dynamic field)))
  | .staticAttr name value => s.attach (.static name value)
  | .staticDynAttr name field => s.attach (.staticDyn name field)
  | .dynStaticAttr field value => s.attach (.dynStatic field value)
  | .dynDynAttr nameField valueField => s.attach (.dynDyn nameField valueField)
  | .event event handler => s.attach (.event event handler)
  | .valueParts name segments => s.attach (.parts name segments)

/-- What operations in a row do. -/
def run (s : Stage) (ops : List Op) : Option Stage :=
  ops.foldlM step s

end Stage

/-- Whether an operation binds something to an element. -/
def Op.isBinding : Op → Bool
  | .tagOpen _ | .tagClose | .selfClosing | .text _ | .dynText _ => false
  | .staticAttr _ _ | .staticDynAttr _ _ | .dynStaticAttr _ _ | .dynDynAttr _ _ | .event _ _
  | .valueParts _ _ => true

/-! ## Forests as the compiler understands them -/

mutual

/-- A node as the compiler understands it: with its tag in normal form, its attributes bound, its
text in segments, and without what is not compiled. -/
def normal (c : Config) : Node → List Rendered
  | .element t children =>
    [.element (normalTag c t.name) (t.attributes.map fun a => Binding.classify a.name a.value)
      (if isVoid (normalTag c t.name) then [] else normalAll c children)]
  | .text s _ => (Placeholder.textSegments s).map .text
  | .comment _ _ => []
  | .other _ _ _ => []

/-- A forest as the compiler understands it. -/
def normalAll (c : Config) : List Node → List Rendered
  | [] => []
  | node :: rest => normal c node ++ normalAll c rest

end

/-! ## Replaying -/

namespace Stage

variable {s s' s'' : Stage} {ops ops' : List Op}

/-- Several children in a row. -/
def addAll (s : Stage) (rs : List Rendered) : Stage :=
  rs.foldl add s

theorem addAll_append (s : Stage) (rs rs' : List Rendered) :
    s.addAll (rs ++ rs') = (s.addAll rs).addAll rs' :=
  List.foldl_append

theorem addAll_shell (roots : List Rendered) (shell : Shell) (rest : List Shell)
    (rs : List Rendered) :
    addAll ⟨roots, shell :: rest⟩ rs
      = ⟨roots, { shell with children := shell.children ++ rs } :: rest⟩ := by
  induction rs generalizing shell with
  | nil => simp [addAll]
  | cons r rs ih =>
    show addAll ⟨roots, { shell with children := shell.children ++ [r] } :: rest⟩ rs = _
    rw [ih]
    simp

theorem addAll_roots (roots rs : List Rendered) : addAll ⟨roots, []⟩ rs = ⟨roots ++ rs, []⟩ := by
  induction rs generalizing roots with
  | nil => simp [addAll]
  | cons r rs ih =>
    show addAll ⟨roots ++ [r], []⟩ rs = _
    rw [ih]
    simp

theorem run_append (s : Stage) (ops ops' : List Op) :
    s.run (ops ++ ops') = (s.run ops).bind fun t => t.run ops' :=
  List.foldlM_append

theorem run_cons (s : Stage) (op : Op) (ops : List Op) :
    s.run (op :: ops) = (s.step op).bind fun t => t.run ops :=
  List.foldlM_cons

/-- The topmost element has no children so far. -/
def TopIsBare (s : Stage) : Prop :=
  ∃ shell rest, s.stack = shell :: rest ∧ shell.children = []

/-- Operations that lead from one stage to another, and of which none binds something to an element
that has a child already. -/
structure Plays (s : Stage) (ops : List Op) (s' : Stage) : Prop where
  run : s.run ops = some s'
  bare : ∀ before op behind t, ops = before ++ op :: behind → op.isBinding = true →
    s.run before = some t → t.TopIsBare

theorem plays_nil (s : Stage) : s.Plays [] s where
  run := rfl
  bare := by
    intro before op behind t h
    cases before <;> cases h

theorem plays_of_step {op : Op} (hstep : s.step op = some s')
    (hbare : op.isBinding = true → s.TopIsBare) : s.Plays [op] s' where
  run := by
    rw [run_cons, hstep]
    rfl
  bare := by
    intro before op' behind t h hop ht
    cases before with
    | nil =>
      cases h
      cases ht
      exact hbare hop
    | cons x before => cases before <;> cases h

/-- **Operations behind others are replayed behind them.** -/
theorem Plays.append (h : s.Plays ops s') (h' : s'.Plays ops' s'') :
    s.Plays (ops ++ ops') s'' where
  run := by
    rw [run_append, h.run]
    exact h'.run
  bare := by
    intro before op behind t hsplit hop ht
    rcases List.append_eq_append_iff.mp hsplit with ⟨mid, rfl, hrest⟩ | ⟨mid, hfirst, hrest⟩
    · have ht' : s'.run mid = some t := by
        rw [run_append, h.run] at ht
        exact ht
      exact h'.bare mid op behind t hrest hop ht'
    · cases mid with
      | nil =>
        obtain rfl : before = ops := by simpa using hfirst.symm
        obtain rfl : s' = t := by
          rw [h.run] at ht
          exact Option.some.inj ht
        exact h'.bare [] op behind s' hrest.symm hop rfl
      | cons x mid =>
        obtain ⟨rfl, -⟩ := List.cons.inj hrest
        exact h.bare before op mid t hfirst hop ht

theorem step_op (s : Stage) (b : Binding) : s.step b.op = s.attach b := by
  cases b <;> rfl

theorem step_segmentOp (s : Stage) (x : Segment) :
    s.step (segmentOp x) = some (s.add (.text x)) := by
  cases x <;> rfl

/-- Attributes are attached to the topmost element in their order. -/
theorem plays_attributes (roots : List Rendered) (tag : String) (bindings : List Binding)
    (rest : List Shell) (attributes : List Attribute) :
    Plays ⟨roots, ⟨tag, bindings, []⟩ :: rest⟩ (attributes.map attributeOp)
      ⟨roots, ⟨tag, bindings ++ attributes.map (fun a => Binding.classify a.name a.value), []⟩
        :: rest⟩ := by
  induction attributes generalizing bindings with
  | nil =>
    rw [List.map_nil, List.map_nil, List.append_nil]
    exact plays_nil _
  | cons a attributes ih =>
    have hfirst : Plays ⟨roots, ⟨tag, bindings, []⟩ :: rest⟩ [attributeOp a]
        ⟨roots, ⟨tag, bindings ++ [Binding.classify a.name a.value], []⟩ :: rest⟩ := by
      refine plays_of_step (step_op _ _) ?_
      intro _
      exact ⟨_, _, rfl, rfl⟩
    have hrest := hfirst.append (ih _)
    rw [List.append_assoc] at hrest
    exact hrest

/-- The segments of a text are added in their order. -/
theorem plays_segments (s : Stage) (segments : List Segment) :
    s.Plays (segments.map segmentOp) (s.addAll (segments.map .text)) := by
  induction segments generalizing s with
  | nil => exact plays_nil s
  | cons x segments ih =>
    have hfirst : s.Plays [segmentOp x] (s.add (.text x)) := by
      refine plays_of_step (step_segmentOp s x) ?_
      cases x <;> intro h <;> cases h
    exact hfirst.append (ih _)

theorem step_endOp (s : Stage) (c : Config) (tag : String) : s.step (endOp c tag) = s.leave := by
  unfold endOp
  split <;> rfl

/-- An element is entered, its attributes are attached, its children are added, and it is left. -/
theorem plays_element (s : Stage) (c : Config) (tag : String) (attributes : List Attribute)
    {ops : List Op} {children : List Rendered}
    (hbody : ∀ t : Stage, t.Plays ops (t.addAll children)) :
    s.Plays (.tagOpen tag :: attributes.map attributeOp ++ ops ++ [endOp c tag])
      (s.add (.element tag (attributes.map fun a => Binding.classify a.name a.value)
        children)) := by
  obtain ⟨roots, stack⟩ := s
  have hopen : Plays ⟨roots, stack⟩ [.tagOpen tag] ⟨roots, ⟨tag, [], []⟩ :: stack⟩ :=
    plays_of_step rfl fun h => by cases h
  have hattributes := plays_attributes roots tag [] stack attributes
  have hchildren := hbody
    ⟨roots, ⟨tag, attributes.map fun a => Binding.classify a.name a.value, []⟩ :: stack⟩
  rw [addAll_shell] at hchildren
  have hclose : Plays
      ⟨roots, ⟨tag, attributes.map fun a => Binding.classify a.name a.value, children⟩ :: stack⟩
      [endOp c tag]
      (add ⟨roots, stack⟩
        (.element tag (attributes.map fun a => Binding.classify a.name a.value) children)) := by
    refine plays_of_step (step_endOp _ c tag) ?_
    unfold endOp
    split <;> intro h <;> cases h
  exact ((hopen.append hattributes).append hchildren).append hclose

end Stage

open Stage

mutual

/-- The operations of a node add what the node is understood as. -/
theorem plays_denote (c : Config) : ∀ (node : Node) (s : Stage),
    s.Plays (denote c node) (s.addAll (normal c node))
  | .element t children, s => by
    rw [denote, normal]
    cases isVoid (normalTag c t.name) with
    | true => exact plays_element s c _ _ plays_nil
    | false => exact plays_element s c _ _ (plays_denoteAll c children)
  | .text t span, s => by
    rw [denote, normal]
    exact plays_segments s _
  | .comment _ _, s => plays_nil s
  | .other _ _ _, s => plays_nil s

/-- **The operations of a forest add what the forest is understood as.** -/
theorem plays_denoteAll (c : Config) : ∀ (nodes : List Node) (s : Stage),
    s.Plays (denoteAll c nodes) (s.addAll (normalAll c nodes))
  | [], s => plays_nil s
  | node :: rest, s => by
    rw [denoteAll, normalAll, addAll_append]
    exact (plays_denote c node s).append (plays_denoteAll c rest _)

end

/-- **Replaying a compiled forest rebuilds it.** The operations that are read from a compiled forest
are replayed without a failure: nothing is attached or closed while no element is open. No element
is open in the end, what was built is the forest as the compiler understands it, and whenever
something is attached to an element, the element has no child yet. -/
theorem run_read_compile (c : Config) (nodes : List Node) {compiled : Compiled}
    (h : compile c nodes = .ok compiled) :
    ∃ ops, Image.read compiled.bytes = .ok ops ∧
      Stage.run {} ops = some { roots := normalAll c nodes, stack := [] } ∧
      ∀ before op behind stage, ops = before ++ op :: behind → op.isBinding = true →
        Stage.run {} before = some stage →
        ∃ shell rest, stage.stack = shell :: rest ∧ shell.children = [] := by
  have hplays := plays_denoteAll c nodes {}
  rw [addAll_roots] at hplays
  exact ⟨denoteAll c nodes, read_of_compile h, hplays.run, hplays.bare⟩

/-- A blank tag takes the placeholder, a void element ends like any other and has lost its child,
and a comment and blank text are gone. -/
theorem run_read_compile_nested :
    ∃ compiled, compile { closeMode := .plainClose, placeholderTag := "Main" }
        [.element { name := " " }
            [.text "\n" {},
              .element { name := "BR", attributes := [⟨"id", "\x7ba\x7d", {}⟩, ⟨"x", "y", {}⟩] }
                [.text "lost" {}],
              .comment "c" {}, .text "Hi \x7bb\x7d" {}],
          .text "end" {}] = .ok compiled ∧
      ∃ ops, Image.read compiled.bytes = .ok ops ∧
        Stage.run {} ops = some
          { roots := [.element "main" []
                [.element "br" [.staticDyn "id" "a", .static "x" "y"] [],
                  .text (.static "Hi "), .text (.dynamic "b")],
              .text (.static "end")]
            stack := [] } ∧
        ∀ before op behind stage, ops = before ++ op :: behind → op.isBinding = true →
          Stage.run {} before = some stage →
          ∃ shell rest, stage.stack = shell :: rest ∧ shell.children = [] := by
  generalize hr : compile _ _ = r
  have hok : r.toOption.isSome := by
    rw [← hr]
    decide +kernel
  cases r with
  | error err => cases hok
  | ok compiled =>
    obtain ⟨ops, hread, hrun, hbare⟩ := run_read_compile _ _ hr
    refine ⟨compiled, rfl, ops, hread, hrun.trans ?_, hbare⟩
    have htags : normalTag { closeMode := .plainClose, placeholderTag := "Main" } " " = "main" ∧
        normalTag { closeMode := .plainClose, placeholderTag := "Main" } "BR" = "br" ∧
        isVoid "main" = false ∧ isVoid "br" = true := by
      decide +kernel
    have htexts : Placeholder.textSegments "\n" = [] ∧
        Placeholder.textSegments "Hi \x7bb\x7d" = [.static "Hi ", .dynamic "b"] ∧
        Placeholder.textSegments "end" = [.static "end"] := by
      decide +kernel
    have hbindings : Binding.classify "id" "\x7ba\x7d" = .staticDyn "id" "a" ∧
        Binding.classify "x" "y" = .static "x" "y" := by
      decide +kernel
    simp [normalAll, normal, htags, htexts, hbindings]

end Stencil
