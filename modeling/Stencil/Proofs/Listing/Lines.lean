import Stencil.Proofs.Listing.Depth
import Stencil.Proofs.Markup.NormalForm
import Stencil.Proofs.Placeholder.Segmentation
import Stencil.Proofs.Text.Lines

/-!
# The lines of a listing

A listing has an entry for each operation, behind the lines of its other sections. An entry is one
line if it holds no line feed. Quoted literals hold none, since they escape it, and neither do the
names of a source, which end at white space. The field of a placeholder may hold any character but
a closing brace, and an entry shows it as it stands: if there is a line feed in it, the entry goes
on over the next line.

## Main definitions

* `Op.names`, `Op.fields`: the strings of an operation that an entry shows without quotes
* `preamble`: the lines in front of the operations
* `entry`, `entries`: the entries of operations in a listing without colours

## Main results

* `newlines_formatOp`: the line feeds of an operation are those of its names and fields
* `notMem_names_denoteAll`: names in which no line feed stands
* `lines_plain`: the lines of a listing are its preamble and its entries
* `listing_compileSource`: **a listing has one line for each operation unless a field holds a line
  feed**
-/

namespace Stencil

open Stencil.Markup Stencil.Text Stencil.Wire

/-! ## What an entry shows without quotes -/

/-- The names that an operation carries. -/
def Op.names : Op → List String
  | tagOpen tag => [tag]
  | staticAttr name _ | staticDynAttr name _ | valueParts name _ => [name]
  | event e _ => [e]
  | _ => []

/-- The fields that an operation carries. -/
def Op.fields : Op → List String
  | dynText f | staticDynAttr _ f | dynStaticAttr f _ | event _ f => [f]
  | dynDynAttr f g => [f, g]
  | valueParts _ segments => segments.filterMap Segment.field?
  | _ => []

namespace Listing

theorem mnemonic_plain (s : String) : Palette.plain.mnemonic s = s := by
  simp [Palette.mnemonic, Palette.plain]

theorem literal_plain (s : String) : Palette.plain.literal s = quote s := by
  simp [Palette.literal, Palette.plain]

theorem field_plain (s : String) : Palette.plain.field s = "\x7b" ++ s ++ "\x7d" := by
  simp [Palette.field, Palette.plain]

theorem dim_plain (s : String) : Palette.plain.dim s = s := by
  simp [Palette.dim, Palette.plain]

@[simp] theorem newlines_field (f : String) : newlines (Palette.plain.field f) = newlines f := by
  rw [field_plain, newlines_append, newlines_append]
  simp [newlines]

@[simp] theorem newlines_literal (s : String) : newlines (Palette.plain.literal s) = 0 := by
  rw [literal_plain, newlines_quote]

@[simp] theorem newlines_formatAttr (name value : String) :
    newlines (formatAttr .plain name value) = newlines name + newlines value := by
  rw [formatAttr, mnemonic_plain]
  simp only [newlines_append]
  simp [newlines]

/-- The line feeds of a value in parts are those of its fields. -/
theorem newlines_segments (segments : List Segment) :
    newlines ("[" ++ " ".intercalate (segments.map (formatSegment .plain)) ++ "]") =
      ((segments.filterMap Segment.field?).map newlines).sum := by
  have hsum : ((segments.map (formatSegment .plain)).map newlines).sum =
      ((segments.filterMap Segment.field?).map newlines).sum := by
    induction segments with
    | nil => rfl
    | cons s segments ih =>
      rw [List.map_cons, List.map_cons, List.sum_cons, ih]
      cases s with
      | «static» text => simp [formatSegment, Segment.field?, List.filterMap_cons]
      | dynamic f => simp [formatSegment, Segment.field?]
  rw [newlines_append, newlines_append, newlines_intercalate rfl, hsum]
  simp [newlines]

/-- **The line feeds of an operation** are those of its names and fields. -/
theorem newlines_formatOp (op : Op) :
    newlines (formatOp .plain op) = (op.names.map newlines).sum + (op.fields.map newlines).sum := by
  have hwords : ∀ word ∈ ["open", "close", "void", "text", "dyn_text", "on", " ", "="],
      newlines word = 0 := by decide
  cases op with
  | tagClose | selfClosing => exact hwords _ (by simp [formatOp, mnemonic_plain])
  | staticAttr | staticDynAttr | dynStaticAttr | dynDynAttr =>
    simp [formatOp, Op.names, Op.fields]
  | valueParts name segments =>
    rw [formatOp, newlines_formatAttr, newlines_segments]
    simp [Op.names, Op.fields]
  | _ =>
    simp only [formatOp, mnemonic_plain, newlines_append, newlines_field, newlines_literal]
    simp [hwords, Op.names, Op.fields]

/-! ## Names without line feeds -/

/-- What is stripped of its front keeps no other characters than it had. -/
theorem subset_strip (front : List Char) (s : String) :
    (Binding.strip front s).toList ⊆ s.toList := by
  unfold Binding.strip afterFront?
  split
  · exact List.Subset.refl _
  · rename_i rest hrest
    split at hrest
    · cases hrest
      rw [String.toList_ofList]
      exact List.drop_subset _ _
    · cases hrest

theorem subset_trim (s : String) : (trim s).toList ⊆ s.toList := by
  intro c hc
  rw [trim, String.toList_ofList, trimChars, List.mem_reverse] at hc
  exact List.dropWhile_subset _ (List.mem_reverse.mp (List.dropWhile_subset _ hc))

theorem notMem_name_of_isElementName {name : List Char} (h : IsElementName name) :
    '\n' ∉ name := by
  intro hmem
  exact (h.chars _ hmem).2 (by decide)

theorem notMem_name_of_isAttributeName {name : List Char} (h : IsAttributeName name) :
    '\n' ∉ name := by
  intro hmem
  exact (h.chars _ hmem).2 (by decide)

/-- The tag of an element of a source is its name without blanks at the end. -/
theorem notMem_normalTag (c : Config) {name : String} (h : IsElementName name.toList) :
    '\n' ∉ (normalTag c name).toList := by
  rw [← tagName_eq, (tagName_of_isElementName c h).1]
  intro hmem
  exact notMem_name_of_isElementName h (subset_trim name hmem)

/-- The name that is attached is that of the attribute, or that of its event. -/
theorem mem_names_attributeOp {a : Attribute} {name : String} (h : name ∈ (attributeOp a).names) :
    name = a.name ∨ name = Binding.eventName a.name := by
  rw [attributeOp, Binding.classify] at h
  split at h
  · exact .inr (List.mem_singleton.mp h)
  left
  split at h
  · cases h
  · rw [Binding.ofValue] at h
    split at h <;> exact List.mem_singleton.mp h
  · cases h
  · exact List.mem_singleton.mp h

theorem notMem_names_attributeOp {a : Attribute} (ha : IsAttributeName a.name.toList) :
    ∀ name ∈ (attributeOp a).names, '\n' ∉ name.toList := by
  intro name hname hmem
  apply notMem_name_of_isAttributeName ha
  rcases mem_names_attributeOp hname with rfl | rfl
  · exact hmem
  · exact subset_strip _ _ hmem

mutual

/-- The names of a node with canonical tags hold no line feed. -/
theorem notMem_names_denote (c : Config) : ∀ node : Node,
    ElementsAll (fun t _ => t.Canonical) [node] →
    ∀ op ∈ denote c node, ∀ name ∈ op.names, '\n' ∉ name.toList
  | .element t children, h => by
    obtain ⟨ht, hchildren⟩ := elementsAll_element.mp h
    intro op hop
    rw [denote, List.mem_append, List.mem_append, List.mem_cons, List.mem_singleton] at hop
    rcases hop with ((hop | hop) | hop) | hop
    · rw [hop]
      exact List.forall_mem_singleton.mpr (notMem_normalTag c ht.name)
    · obtain ⟨a, ha, hop⟩ := List.mem_map.mp hop
      rw [← hop]
      exact notMem_names_attributeOp (ht.attributes a ha)
    · split at hop
      · cases hop
      · exact notMem_names_denoteAll c children hchildren op hop
    · rw [hop]
      unfold endOp
      split <;> exact List.forall_mem_nil _
  | .text s _, _ => by
    intro op hop
    obtain ⟨segment, -, rfl⟩ := List.mem_map.mp hop
    cases segment <;> exact List.forall_mem_nil _
  | .comment _ _, _ => List.forall_mem_nil _
  | .other _ _ _, _ => List.forall_mem_nil _

/-- **The names of a forest with canonical tags hold no line feed.** -/
theorem notMem_names_denoteAll (c : Config) : ∀ nodes : List Node,
    ElementsAll (fun t _ => t.Canonical) nodes →
    ∀ op ∈ denoteAll c nodes, ∀ name ∈ op.names, '\n' ∉ name.toList
  | [], _ => List.forall_mem_nil _
  | node :: rest, h => by
    obtain ⟨hnode, hrest⟩ := elementsAll_cons.mp h
    exact List.forall_mem_append.mpr
      ⟨notMem_names_denote c node hnode, notMem_names_denoteAll c rest hrest⟩

end

theorem canonical_parse (source : String) :
    ElementsAll (fun t _ => t.Canonical) (parse source).nodes := by
  intro tag children hmem
  obtain ⟨t, rest, hsuffix, hwritten⟩ := exists_writtenBy source tag children hmem
  exact hwritten.canonical hsuffix

/-! ## Entries -/

/-- The lines in front of the operations. -/
def preamble (p : Palette) (i : Image) : List String :=
  headerLines p i.header
    ++ ["", p.mnemonic "[strings]", p.literal (Utf8.decodeLossy i.strings), "",
      p.mnemonic "[code]"]

/-- The entry of an operation among `count` ones, in a listing without colours: its number, aligned
to the right with the largest one, two spaces, two more for each element around it, and what it
does. -/
def entry (count index depth : Nat) (op : Op) : String :=
  padNumber (numberWidth count) index ++ "  "
    ++ String.ofList (List.replicate (2 * depth) ' ') ++ formatOp .plain op

/-- The entries of operations that stand at some depths. -/
def entries (ops : List (Nat × Op)) : List String :=
  ops.zipIdx.map fun x => entry ops.length x.2 x.1.1 x.1.2

theorem length_entries (ops : List (Nat × Op)) : (entries ops).length = ops.length := by
  rw [entries, List.length_map, List.length_zipIdx]

/-- **The lines of a listing** are its preamble and the entries of its operations. -/
theorem lines_plain (i : Image) (ops : List Op) :
    lines .plain i ops = preamble .plain i ++ entries (shownFrom 0 ops) := by
  have hlines : codeLines .plain (numberWidth ops.length) 0 0 ops = entries (shownFrom 0 ops) := by
    rw [codeLines_eq_map, entries, length_shownFrom]
    simp only [codeLine, entry, dim_plain]
  rw [lines, hlines]
  rfl

theorem listing_of_decode {i : Image} {ops : List Op} (h : i.decode = .ok ops) :
    listing .plain i = .ok (unlines (preamble .plain i ++ entries (shownFrom 0 ops))) := by
  rw [listing, h, ← lines_plain]
  rfl

/-- **The numbers are aligned**: each of them fits into as many characters as the last. -/
theorem padNumber_aligned {count index : Nat} (h : index < count) :
    ∃ blanks, padNumber (numberWidth count) index =
        String.ofList (List.replicate blanks ' ') ++ Nat.repr index ∧
      blanks + (Nat.repr index).length = (Nat.repr (count - 1)).length := by
  have hpos : 0 < (Nat.repr (count - 1)).length := Nat.length_repr_pos
  have hlast := (Nat.length_repr_le_iff hpos).mp (Nat.le_refl _)
  have hle : (Nat.repr index).length ≤ (Nat.repr (count - 1)).length :=
    (Nat.length_repr_le_iff hpos).mpr (by omega)
  exact ⟨_, rfl, Nat.sub_add_cancel hle⟩

theorem newlines_entry (count index depth : Nat) (op : Op) :
    newlines (entry count index depth op) = newlines (formatOp .plain op) := by
  rw [entry, padNumber]
  simp [show newlines "  " = 0 from rfl]

theorem map_newlines_entries (ops : List (Nat × Op)) :
    (entries ops).map newlines = ops.map fun x => newlines (formatOp .plain x.2) := by
  have hentry : (newlines ∘ fun x : (Nat × Op) × Nat => entry ops.length x.2 x.1.1 x.1.2) =
      (fun x : Nat × Op => newlines (formatOp .plain x.2)) ∘ Prod.fst :=
    funext fun x => by rw [Function.comp_apply, Function.comp_apply, newlines_entry]
  rw [entries, List.map_map, hentry, ← List.map_map, List.zipIdx_map_fst]

/-- If no name holds a line feed, the line feeds of entries are those of their fields. -/
theorem sum_newlines_entries {ops : List (Nat × Op)}
    (hnames : ∀ x ∈ ops, ∀ name ∈ x.2.names, '\n' ∉ name.toList) :
    ((entries ops).map newlines).sum = ((ops.flatMap fun x => x.2.fields).map newlines).sum := by
  rw [map_newlines_entries]
  induction ops with
  | nil => rfl
  | cons x ops ih =>
    obtain ⟨hx, hops⟩ := List.forall_mem_cons.mp hnames
    rw [List.map_cons, List.sum_cons, List.flatMap_cons, List.map_append, List.sum_append, ih hops,
      newlines_formatOp, sum_newlines_eq_zero_iff.mpr hx, Nat.zero_add]

theorem newlines_count {front : String} (hfront : newlines front = 0) (n : Nat) :
    newlines (front ++ toString n) = 0 := by
  rw [newlines_append, hfront, Nat.zero_add]
  exact newlines_repr n

/-- The counts of a header stand in one line each. -/
theorem newlines_headerLines (h : Header) : ∀ line ∈ headerLines .plain h, newlines line = 0 := by
  have hnames : ∀ t ∈ Table.all, newlines (t.name ++ " = ") = 0 := by decide
  rw [headerLines, mnemonic_plain]
  refine List.forall_mem_append.mpr ⟨List.forall_mem_append.mpr ⟨?_, ?_⟩, ?_⟩
  · refine List.forall_mem_cons.mpr ⟨rfl, List.forall_mem_cons.mpr ⟨newlines_count rfl _, ?_⟩⟩
    exact List.forall_mem_singleton.mpr (newlines_count rfl _)
  · exact List.forall_mem_map.mpr fun t ht => newlines_count (hnames t ht) _
  · exact List.forall_mem_singleton.mpr (newlines_count rfl _)

/-- The lines in front of the operations hold no line feed. -/
theorem notMem_preamble (i : Image) : ∀ line ∈ preamble .plain i, '\n' ∉ line.toList := by
  have hlines : ∀ line ∈ preamble .plain i, newlines line = 0 := by
    rw [preamble, mnemonic_plain, mnemonic_plain]
    refine List.forall_mem_append.mpr ⟨newlines_headerLines i.header, ?_⟩
    refine List.forall_mem_cons.mpr ⟨rfl, List.forall_mem_cons.mpr ⟨rfl, ?_⟩⟩
    refine List.forall_mem_cons.mpr ⟨newlines_literal _, ?_⟩
    exact List.forall_mem_cons.mpr ⟨rfl, List.forall_mem_singleton.mpr rfl⟩
  exact fun line hline => newlines_eq_zero_iff.mp (hlines line hline)

/-- **The lines of a listing without colours**: those of its preamble, and then one for each
operation and each line feed in a field. They are the entries if no field holds a line feed. -/
theorem endedLines_entries (i : Image) {ops : List (Nat × Op)}
    (hnames : ∀ x ∈ ops, ∀ name ∈ x.2.names, '\n' ∉ name.toList) :
    ∃ code, endedLines (unlines (preamble .plain i ++ entries ops)) = preamble .plain i ++ code ∧
      code.length = ops.length + ((ops.flatMap fun x => x.2.fields).map newlines).sum ∧
      (code = entries ops ↔ ∀ x ∈ ops, ∀ f ∈ x.2.fields, '\n' ∉ f.toList) := by
  have hsum := sum_newlines_entries hnames
  refine ⟨(entries ops).flatMap linesMade, ?_, ?_, ?_⟩
  · rw [endedLines_unlines, List.flatMap_append, flatMap_linesMade_of_notMem (notMem_preamble i)]
  · rw [length_flatMap_linesMade, length_entries, hsum]
  · rw [flatMap_linesMade_eq_iff, hsum, sum_newlines_eq_zero_iff]
    simp only [List.mem_flatMap]
    constructor
    · exact fun hfields x hx f hf => hfields f ⟨x, hx, hf⟩
    · rintro hfields f ⟨x, hx, hf⟩
      exact hfields x hx f hf

/-! ## The listing of a source -/

/-- The image of a compiled source, and the operations that it decodes to. -/
theorem exists_image_of_compileSource {c : Config} {source : String} {compiled : Compiled}
    (h : compileSource c source = .ok compiled) :
    ∃ i, Image.load compiled.bytes = .ok i ∧ i.decode = .ok (denoteAll c (parse source).nodes) ∧
      i.header.instructions.toNat = (denoteAll c (parse source).nodes).length := by
  rw [compileSource] at h
  cases hcompile : compile c (parse source).nodes with
  | error err =>
    rw [hcompile] at h
    cases h
  | ok made =>
    rw [hcompile] at h
    cases h
    obtain ⟨e, hr, rfl⟩ := run_of_compile hcompile
    obtain ⟨hops, -⟩ := adds_emitNodes c (parse source).nodes Emitter.carries_nil hr
    refine ⟨e.image, hops.load, hops.decode, ?_⟩
    have hlength := hops.holds.length_eq
    have hwords := hops.fits.words
    rw [Image.header, UInt32.toNat_ofNat_of_lt' hwords, Emitter.length_image_words,
      ← Array.length_toList, hlength]
    rfl

/-- **A listing has one line for each operation unless a field holds a line feed.** The listing of a
compiled source without colours is its preamble, the last line of which is the heading of the code,
and an entry for each operation, in their order: its number, aligned to the right with the largest
one, two spaces, two more for each element around the operation in the forest, and what it does.
The count from which the listing takes the depths never goes down from zero and ends there. The
code has a line for each operation and one more for each line feed in a field, so that its lines are
the entries exactly if no field holds a line feed. -/
theorem listing_compileSource (c : Config) (source : String) {compiled : Compiled}
    (h : compileSource c source = .ok compiled) :
    ∃ i ops, ops = denoteAllAt c 0 (parse source).nodes ∧
      Image.load compiled.bytes = .ok i ∧ i.decode = .ok (ops.map Prod.snd) ∧
      ops.length = i.header.instructions.toNat ∧
      listing .plain i = .ok (unlines (preamble .plain i ++ entries ops)) ∧
      (∀ index < ops.length, ∃ blanks, padNumber (numberWidth ops.length) index =
          String.ofList (List.replicate blanks ' ') ++ Nat.repr index ∧
        blanks + (Nat.repr index).length = (Nat.repr (ops.length - 1)).length) ∧
      (∀ before op behind, ops.map Prod.snd = before ++ op :: behind → op.endsElement = true →
        0 < before.foldl depthAfter 0) ∧
      (ops.map Prod.snd).foldl depthAfter 0 = 0 ∧
      ∃ code, endedLines (unlines (preamble .plain i ++ entries ops)) = preamble .plain i ++ code ∧
        code.length = i.header.instructions.toNat +
          ((ops.flatMap fun x => x.2.fields).map newlines).sum ∧
        (code = entries ops ↔ ∀ x ∈ ops, ∀ f ∈ x.2.fields, '\n' ∉ f.toList) := by
  obtain ⟨i, hload, hdecode, hcount⟩ := exists_image_of_compileSource h
  have hops := map_snd_denoteAllAt c 0 (parse source).nodes
  have hsettled := settled_denoteAll c (parse source).nodes
  have hlisting := listing_of_decode hdecode
  have hnames := notMem_names_denoteAll c _ (canonical_parse source)
  rw [shownFrom_denoteAll] at hlisting
  rw [← hops] at hdecode hcount hsettled hnames
  rw [List.forall_mem_map] at hnames
  rw [List.length_map] at hcount
  refine ⟨i, _, rfl, hload, hdecode, hcount.symm, hlisting, fun index => padNumber_aligned,
    hsettled.pos_of_ends 0, hsettled.foldl_eq 0, ?_⟩
  rw [hcount]
  exact endedLines_entries i hnames

/-- A source of twelve operations, so that the numbers have two digits, with a value in parts, an
event, a text that holds a quote and a line feed, and a void element in an element. -/
def twelveOps : String :=
  "<ul class=a><li data-k='\x7bx\x7d \x7by\x7d' onclick=\x7bb\x7d>\x7bc\x7d\"\n<br>\x7bd\x7d</ul>"

/-- The numbers have two digits, and the line feed of a text is escaped. -/
theorem listing_compileSource_nested :
    ∃ compiled, compileSource {} twelveOps = .ok compiled ∧
      ∃ i text, Image.load compiled.bytes = .ok i ∧ listing .plain i = .ok text ∧
        i.header.instructions.toNat = 12 ∧
        endedLines text = preamble .plain i ++
          [" 0  open ul", " 1    attr class=\"a\"", " 2    open li",
            " 3      attr data-k=[\x7bx\x7d \" \" \x7by\x7d]", " 4      on click=\x7bb\x7d",
            " 5      dyn_text \x7bc\x7d", " 6      text \"\\\"\\n\"", " 7      open br",
            " 8      void", " 9      dyn_text \x7bd\x7d", "10    close", "11  close"] := by
  generalize hr : compileSource {} twelveOps = r
  have hok : r.toOption.isSome = true := by
    rw [← hr]
    decide +kernel
  cases r with
  | error err => cases hok
  | ok compiled =>
    obtain ⟨i, ops, rfl, hload, -, hcount, hlisting, -, -, -, code, hcode, -, hentries⟩ :=
      listing_compileSource {} twelveOps hr
    refine ⟨compiled, rfl, i, _, hload, hlisting, hcount.symm.trans (by decide +kernel), ?_⟩
    rw [hcode, hentries.mpr (by decide +kernel)]
    exact congrArg (preamble .plain i ++ ·) (by decide +kernel)

/-- A field with a line feed takes two lines. -/
theorem listing_field_over_two_lines :
    ¬ ∀ c source compiled i text, compileSource c source = .ok compiled →
      Image.load compiled.bytes = .ok i → listing .plain i = .ok text →
      ∃ code, endedLines text = preamble .plain i ++ code ∧
        code.length = i.header.instructions.toNat := by
  intro h
  generalize hr : compileSource {} "\x7ba\nb\x7d" = r
  have hok : r.toOption.isSome = true := by
    rw [← hr]
    decide +kernel
  cases r with
  | error err => cases hok
  | ok compiled =>
    obtain ⟨i, hload, hdecode, hcount⟩ := exists_image_of_compileSource hr
    obtain ⟨code, hcode, hlength⟩ := h {} _ compiled i _ hr hload (listing_of_decode hdecode)
    have htwo : (entries (shownFrom 0 (denoteAll {} (parse "\x7ba\nb\x7d").nodes))).flatMap
        linesMade = ["0  dyn_text \x7ba", "b\x7d"] := by decide +kernel
    rw [endedLines_unlines, List.flatMap_append, flatMap_linesMade_of_notMem (notMem_preamble i),
      htwo] at hcode
    rw [← List.append_cancel_left hcode, hcount] at hlength
    revert hlength
    decide +kernel

end Listing

end Stencil
