import Stencil.Proofs.Emit.Canonical

/-!
# What settings change

A setting changes what it names and nothing else. More room in the tables changes nothing about a
forest that found room before. How void elements end is a matter of single instruction words: both
modes succeed or fail alike, report alike, and lay out the same strings and tables at the same
places.

For the second part a forest is compiled once with the ends of void elements left open. What an
operation adds to an emitter does not depend on the instructions that are there, so that the two
modes run side by side and differ in what they put into the open places.

## Main definitions

* `outline`, `outlineAll`: the operations of a forest, with the ends of void elements left open
* `Emitter.plain`: an emitter in which void elements end as all others do
* `Compiled.DifferAt`: compiled forests that differ in marked instruction words

## Main results

* `compile_eq`: compiling a forest is emitting its operations
* `emit_mono`, `forM_emit_mono`: with more room, operations do what they did
* `denoteAll_eq_outlineAll`: what a forest denotes is its outline, filled in
* `run_emit_plain`, `run_forM_plain`: the two modes run side by side
* `compile_settings`: **settings change only what they name**
-/

namespace Stencil

open Stencil.Markup Stencil.Wire

variable {c c' : Config} {e e' : Emitter}

/-! ## Compiling is emitting -/

/-- **Compiling a forest is emitting its operations**, with the reports that it leaves to make. -/
theorem compile_eq (c : Config) (nodes : List Node) :
    compile c nodes =
      match ((denoteAll c nodes).forM (emit c)).run {} with
      | .ok _ e => .ok ⟨e.image.bytes, reportsAll c nodes⟩
      | .error err _ => .error err := by
  have hperforms := performs_emitNodes c nodes
  cases h : ((denoteAll c nodes).forM (emit c)).run {} with
  | ok _ e =>
    obtain ⟨-, hdiagnostics⟩ := Emitter.carries_nil.forM_emit h
    rw [compile, hperforms.ok h]
    dsimp only [Emitter.compiled]
    rw [Emitter.diagnostics_noting, hdiagnostics]
    rfl
  | error err e =>
    obtain ⟨made, -, hr⟩ := hperforms.error h
    rw [compile, hr]

/-! ## Settings that operations do not see -/

theorem normalTag_congr (hp : c'.placeholder = c.placeholder) (name : String) :
    normalTag c' name = normalTag c name := by
  rw [normalTag, normalTag, hp]

mutual

/-- What is reported of a node depends on the placeholder alone. -/
theorem reports_congr (c c' : Config) (hp : c'.placeholder = c.placeholder) : ∀ node : Node,
    reports c' node = reports c node
  | .element t children => by
    rw [reports, reports, tagReports, tagReports, normalTag_congr hp,
      reportsAll_congr c c' hp children]
  | .text _ _ => rfl
  | .comment _ _ => rfl
  | .other _ _ _ => rfl

/-- What is reported of a forest depends on the placeholder alone. -/
theorem reportsAll_congr (c c' : Config) (hp : c'.placeholder = c.placeholder) :
    ∀ nodes : List Node, reportsAll c' nodes = reportsAll c nodes
  | [] => rfl
  | node :: rest => by
    rw [reportsAll, reportsAll, reports_congr c c' hp node, reportsAll_congr c c' hp rest]

end

/-! ## Outlines -/

mutual

/-- The operations that a node denotes, with the ends of void elements left open. -/
def outline (c : Config) : Node → List (Option Op)
  | .element t children =>
    some (.tagOpen (normalTag c t.name)) :: t.attributes.map (fun a => some (attributeOp a))
      ++ if isVoid (normalTag c t.name) then [none] else outlineAll c children ++ [some .tagClose]
  | .text s _ => (Placeholder.textSegments s).map fun segment => some (segmentOp segment)
  | .comment _ _ => []
  | .other _ _ _ => []

/-- The operations that a forest denotes, with the ends of void elements left open. -/
def outlineAll (c : Config) : List Node → List (Option Op)
  | [] => []
  | node :: rest => outline c node ++ outlineAll c rest

end

/-- The operation at the end of a void element. -/
def CloseMode.voidEnd : CloseMode → Op
  | voidOpcode => .selfClosing
  | plainClose => .tagClose

theorem endOp_eq (c : Config) (tag : String) :
    endOp c tag = if isVoid tag then c.closeMode.voidEnd else .tagClose := by
  rw [endOp]
  cases isVoid tag <;> cases c.closeMode <;> rfl

mutual

/-- What a node denotes is its outline, filled in. -/
theorem denote_eq_outline (c c' : Config) (hp : c'.placeholder = c.placeholder) : ∀ node : Node,
    denote c' node = (outline c node).map (·.getD c'.closeMode.voidEnd)
  | .element t children => by
    rw [denote, outline, normalTag_congr hp, endOp_eq]
    have hattributes : (t.attributes.map fun a => some (attributeOp a)).map
        (·.getD c'.closeMode.voidEnd) = t.attributes.map attributeOp := by
      rw [List.map_map]
      rfl
    cases isVoid (normalTag c t.name) with
    | true =>
      simp only [if_true, List.append_nil, List.map_append, List.map_cons, hattributes]
      rfl
    | false =>
      simp only [Bool.false_eq_true, if_false, List.map_append, List.map_cons, hattributes,
        ← denoteAll_eq_outlineAll c c' hp children, List.append_assoc]
      rfl
  | .text s span => by
    rw [denote, outline, List.map_map]
    rfl
  | .comment _ _ => rfl
  | .other _ _ _ => rfl

/-- **What a forest denotes is its outline, filled in** with what ends void elements. -/
theorem denoteAll_eq_outlineAll (c c' : Config) (hp : c'.placeholder = c.placeholder) :
    ∀ nodes : List Node, denoteAll c' nodes = (outlineAll c nodes).map (·.getD c'.closeMode.voidEnd)
  | [] => rfl
  | node :: rest => by
    rw [denoteAll, outlineAll, List.map_append, denote_eq_outline c c' hp node,
      denoteAll_eq_outlineAll c c' hp rest]

end

theorem attributeOp_ne_selfClosing (a : Attribute) : attributeOp a ≠ .selfClosing := by
  rw [attributeOp]
  cases Binding.classify a.name a.value <;> exact Op.noConfusion

theorem segmentOp_ne_selfClosing (segment : Segment) : segmentOp segment ≠ .selfClosing := by
  cases segment <;> exact Op.noConfusion

mutual

/-- A void element ends at an open place and nowhere else. -/
theorem ne_selfClosing_of_mem_outline (c : Config) : ∀ node : Node,
    ∀ op ∈ outline c node, op ≠ some .selfClosing
  | .element t children, op, hop => by
    rw [outline] at hop
    rcases List.mem_append.mp hop with hop | hop
    · rcases List.mem_cons.mp hop with rfl | hop
      · simp
      · obtain ⟨a, -, rfl⟩ := List.mem_map.mp hop
        simpa using attributeOp_ne_selfClosing a
    · split at hop
      · rw [List.mem_singleton.mp hop]
        simp
      · rcases List.mem_append.mp hop with hop | hop
        · exact ne_selfClosing_of_mem_outlineAll c children op hop
        · rw [List.mem_singleton.mp hop]
          simp
  | .text s span, op, hop => by
    rw [outline] at hop
    obtain ⟨segment, -, rfl⟩ := List.mem_map.mp hop
    simpa using segmentOp_ne_selfClosing segment
  | .comment _ _, op, hop => by cases hop
  | .other _ _ _, op, hop => by cases hop

/-- Void elements end at open places and nowhere else. -/
theorem ne_selfClosing_of_mem_outlineAll (c : Config) : ∀ nodes : List Node,
    ∀ op ∈ outlineAll c nodes, op ≠ some .selfClosing
  | [], op, hop => by cases hop
  | node :: rest, op, hop => by
    rw [outlineAll] at hop
    rcases List.mem_append.mp hop with hop | hop
    · exact ne_selfClosing_of_mem_outline c node op hop
    · exact ne_selfClosing_of_mem_outlineAll c rest op hop

end

/-! ## More room -/

namespace Emit

theorem reserve_mono (hle : c.payloadLimit ≤ c'.payloadLimit) {t : Table} {index : PayloadIndex}
    (h : (reserve c t).run e = .ok index e') : (reserve c' t).run e = .ok index e' := by
  obtain ⟨rfl, hindex, hlt⟩ := reserve_eq_ok h
  obtain ⟨index', hindex', hr⟩ := run_reserve_of_lt (hlt.trans_le hle)
  rw [hr, Fin.ext (hindex'.trans hindex.symm)]

/-- An action that first asks for room does what it did if there is more. -/
theorem reserve_bind_mono {α : Type} (hle : c.payloadLimit ≤ c'.payloadLimit) {t : Table}
    {f : PayloadIndex → Emit α} {a : α} (h : (reserve c t >>= f).run e = .ok a e') :
    (reserve c' t >>= f).run e = .ok a e' := by
  obtain ⟨index, e₁, hreserve, hrest⟩ := run_bind_eq_ok.mp h
  exact run_bind_eq_ok.mpr ⟨index, e₁, reserve_mono hle hreserve, hrest⟩

end Emit

/-- **With more room, an operation does what it did.** -/
theorem emit_mono (hle : c.payloadLimit ≤ c'.payloadLimit) {op : Op}
    (h : (emit c op).run e = .ok () e') : (emit c' op).run e = .ok () e' := by
  cases hrow : op.row? with
  | some p =>
    rw [emit_of_row? c hrow] at h
    rw [emit_of_row? c' hrow]
    exact Emit.reserve_bind_mono hle h
  | none =>
    cases op with
    | tagClose => exact h
    | selfClosing => exact h
    | valueParts name segments => exact Emit.reserve_bind_mono hle h
    | _ => cases hrow

/-- **With more room, operations in a row do what they did.** -/
theorem forM_emit_mono (hle : c.payloadLimit ≤ c'.payloadLimit) {ops : List Op}
    (h : (ops.forM (emit c)).run e = .ok () e') : (ops.forM (emit c')).run e = .ok () e' := by
  induction ops generalizing e with
  | nil => exact h
  | cons op ops ih =>
    obtain ⟨e₁, h₁, h₂⟩ := Emit.run_seq_eq_ok.mp h
    exact Emit.run_seq_eq_ok.mpr ⟨e₁, emit_mono hle h₁, ih h₂⟩

/-- With more room, a forest is compiled to what it was compiled to. -/
theorem compile_mono {nodes : List Node} {compiled : Compiled} {n : Nat}
    (h : compile c nodes = .ok compiled) (hn : c.maxEntries ≤ n) :
    compile { c with maxEntries := n } nodes = .ok compiled := by
  have hlimit : c.payloadLimit ≤ { c with maxEntries := n }.payloadLimit := by
    dsimp only [Config.payloadLimit]
    omega
  have hops : denoteAll { c with maxEntries := n } nodes = denoteAll c nodes := by
    rw [denoteAll_eq_outlineAll c { c with maxEntries := n } rfl, denoteAll_eq_outlineAll c c rfl]
  have hreports : reportsAll { c with maxEntries := n } nodes = reportsAll c nodes :=
    reportsAll_congr c { c with maxEntries := n } rfl nodes
  rw [compile_eq] at h ⊢
  rw [hops, hreports]
  cases hr : ((denoteAll c nodes).forM (emit c)).run {} with
  | ok _ e =>
    rw [hr] at h
    rw [forM_emit_mono hlimit hr]
    exact h
  | error err e =>
    rw [hr] at h
    cases h

/-! ## Void elements that end as all others do -/

/-- An instruction that ends a void element as all others. -/
def Wire.Instr.plain : Instr → Instr
  | .selfClosing => .tagClose
  | instr => instr

/-- An operation that ends a void element as all others. -/
def Op.plain : Op → Op
  | .selfClosing => .tagClose
  | op => op

/-- An emitter in which void elements end as all others do. -/
def Emitter.plain (e : Emitter) : Emitter :=
  e.recast (·.map Instr.plain) id

theorem Wire.Instr.plain_of_ne {instr : Instr} (h : instr.opcode ≠ .selfClosing) :
    instr.plain = instr := by
  cases instr with
  | selfClosing => exact absurd rfl h
  | _ => rfl

theorem Op.plain_of_ne {op : Op} (h : op ≠ .selfClosing) : op.plain = op := by
  cases op with
  | selfClosing => exact absurd rfl h
  | _ => rfl

theorem Op.opcode_eq_selfClosing {op : Op} : op.opcode = .selfClosing ↔ op = .selfClosing := by
  cases op <;> simp [Op.opcode]

/-- **An operation runs side by side with its plain form.** -/
theorem run_emit_plain (c : Config) (op : Op) (e : Emitter) :
    (emit c op.plain).run e.plain = Emit.mapEmitter Emitter.plain ((emit c op).run e) := by
  have hsize : ∀ is : Array Instr, (is.map Instr.plain).size = is.size := by
    intro is
    exact Array.size_map
  by_cases hop : op = .selfClosing
  · subst hop
    apply Emit.run_pushInstr_recast hsize
    intro is
    exact Array.map_push
  · rw [Op.plain_of_ne hop]
    apply Emit.commutes_emit c hsize
    intro instr hinstr is
    have hne : instr.opcode ≠ .selfClosing := by
      rw [hinstr]
      exact mt Op.opcode_eq_selfClosing.mp hop
    rw [Array.map_push, Instr.plain_of_ne hne]

/-- **Operations in a row run side by side with their plain forms.** -/
theorem run_forM_plain (c : Config) (ops : List Op) (e : Emitter) :
    ((ops.map Op.plain).forM (emit c)).run e.plain =
      Emit.mapEmitter Emitter.plain ((ops.forM (emit c)).run e) := by
  induction ops generalizing e with
  | nil => rfl
  | cons op ops ih =>
    show (do emit c op.plain; (ops.map Op.plain).forM (emit c) : Emit Unit).run e.plain =
      Emit.mapEmitter Emitter.plain ((do emit c op; ops.forM (emit c) : Emit Unit).run e)
    rw [EStateM.run_bind, EStateM.run_bind, run_emit_plain]
    cases (emit c op).run e with
    | ok _ e₁ => exact ih e₁
    | error err e₁ => rfl

/-- What a forest denotes where all elements end alike. -/
theorem denoteAll_plainClose (c : Config) (nodes : List Node) :
    denoteAll { c with closeMode := .plainClose } nodes =
      (denoteAll { c with closeMode := .voidOpcode } nodes).map Op.plain := by
  rw [denoteAll_eq_outlineAll c { c with closeMode := .plainClose } rfl,
    denoteAll_eq_outlineAll c { c with closeMode := .voidOpcode } rfl, List.map_map]
  apply List.map_congr_left
  intro op hop
  have hne := ne_selfClosing_of_mem_outlineAll c nodes op hop
  cases op with
  | none => rfl
  | some op =>
    refine (Op.plain_of_ne ?_).symm
    rintro rfl
    exact hne rfl

theorem emit_closeMode (c : Config) (mode : CloseMode) :
    emit { c with closeMode := mode } = emit c := by
  funext op
  cases op <;> rfl

/-- The two modes run side by side. -/
theorem run_plainClose (c : Config) (nodes : List Node) :
    ((denoteAll { c with closeMode := .plainClose } nodes).forM
        (emit { c with closeMode := .plainClose })).run {} =
      Emit.mapEmitter Emitter.plain
        (((denoteAll { c with closeMode := .voidOpcode } nodes).forM
          (emit { c with closeMode := .voidOpcode })).run {}) := by
  rw [emit_closeMode c .plainClose, emit_closeMode c .voidOpcode, denoteAll_plainClose]
  have hempty : ({} : Emitter).plain = {} := by
    rw [Emitter.plain, Emitter.recast, Array.map_empty]
    rfl
  rw [← run_forM_plain, hempty]

/-! ## Words that differ -/

/-- Compiled forests that differ in marked instruction words and nowhere else: a marked word is 2 in
the one and 1 in the other. -/
structure Compiled.DifferAt (marked : List Bool) (compiled compiled' : Compiled) : Prop where
  diagnostics : compiled.diagnostics = compiled'.diagnostics
  length : compiled.bytes.length = compiled'.bytes.length
  bytes : ∃ (header : List UInt8) (words : List (Option UInt32)) (rest : List UInt8),
    header.length = headerSize ∧ words.map Option.isNone = marked ∧
    compiled.bytes = header ++ words.flatMap (fun w => wordBytes (w.getD 2)) ++ rest ∧
    compiled'.bytes = header ++ words.flatMap (fun w => wordBytes (w.getD 1)) ++ rest

/-- The word of an instruction, with the end of a void element left open. -/
def Wire.Instr.openWord (instr : Instr) : Option UInt32 :=
  if instr.opcode = .selfClosing then none else some instr.pack

theorem Wire.Instr.getD_openWord (instr : Instr) : instr.openWord.getD 2 = instr.pack := by
  cases instr with
  | selfClosing => rfl
  | tagClose => rfl
  | entry t index => rfl

theorem Wire.Instr.getD_openWord_plain (instr : Instr) :
    instr.openWord.getD 1 = instr.plain.pack := by
  cases instr with
  | selfClosing => rfl
  | tagClose => rfl
  | entry t index => rfl

theorem Wire.Image.Holds.opcode_eq {i : Image} {instr : Instr} {op : Op} (h : i.Holds instr op) :
    instr.opcode = op.opcode := by
  cases h with
  | tagClose => rfl
  | selfClosing => rfl
  | entry row _ _ => exact (Op.opcode_of_row? row).symm
  | valueParts _ _ _ _ _ => rfl

/-- The open words of an emitter are those of the operations that end void elements. -/
theorem Emitter.Carries.map_isNone_openWord {ops : List Op} (h : e.Carries ops) :
    (e.instructions.toList.map Instr.openWord).map Option.isNone =
      ops.map fun op => decide (op = .selfClosing) := by
  have hholds := h.holds
  clear h
  generalize e.instructions.toList = is at hholds
  induction hholds with
  | nil => rfl
  | @cons instr op is ops hfirst _ ih =>
    rw [List.map_cons, List.map_cons, List.map_cons, ih, Instr.openWord, hfirst.opcode_eq]
    by_cases hop : op = .selfClosing
    · rw [if_pos (Op.opcode_eq_selfClosing.mpr hop), decide_eq_true hop]
      rfl
    · rw [if_neg (mt Op.opcode_eq_selfClosing.mp hop), decide_eq_false hop]
      rfl

/-- An image is that of its plain form but for its open words. -/
theorem Emitter.bytes_plain (e : Emitter) :
    ∃ (header rest : List UInt8), header.length = headerSize ∧
      e.image.bytes = header ++ (e.instructions.toList.map Instr.openWord).flatMap
        (fun w => wordBytes (w.getD 2)) ++ rest ∧
      e.plain.image.bytes = header ++ (e.instructions.toList.map Instr.openWord).flatMap
        (fun w => wordBytes (w.getD 1)) ++ rest := by
  have hwords : e.plain.image.words = e.instructions.toList.map fun i => i.plain.pack := by
    show (e.instructions.map Instr.plain).toList.map Instr.pack = _
    rw [Array.toList_map, List.map_map]
    rfl
  have hlength : e.plain.image.words.length = e.image.words.length := by
    rw [hwords, Emitter.image_words, List.length_map, List.length_map]
  have hheader : e.plain.image.header = e.image.header := by
    rw [Image.header, hlength]
    rfl
  refine ⟨e.image.header.bytes, e.image.strings
    ++ (Image.padding (headerSize + 4 * e.image.words.length + e.image.strings.length)
    ++ (e.image.tables.toList.flatMap (fun refs => refs.toList.flatMap StringRef.bytes)
    ++ e.image.parts)), Header.length_bytes _, ?_, ?_⟩
  · simp only [Image.bytes, List.append_assoc, List.flatMap_map, Instr.getD_openWord,
      Emitter.image_words, List.length_map]
  · rw [Image.bytes, hheader, hlength, hwords]
    simp only [List.append_assoc, List.flatMap_map, Instr.getD_openWord_plain]
    rfl

/-- Both modes fail with the same error, or both succeed and differ at the ends of void elements. -/
theorem compile_closeMode (c : Config) (nodes : List Node) :
    (∃ err, compile { c with closeMode := .voidOpcode } nodes = .error err ∧
      compile { c with closeMode := .plainClose } nodes = .error err) ∨
    ∃ compiled compiled', compile { c with closeMode := .voidOpcode } nodes = .ok compiled ∧
      compile { c with closeMode := .plainClose } nodes = .ok compiled' ∧
      compiled.DifferAt ((outlineAll c nodes).map Option.isNone) compiled' := by
  have hreports : reportsAll { c with closeMode := .voidOpcode } nodes =
      reportsAll { c with closeMode := .plainClose } nodes :=
    reportsAll_congr { c with closeMode := .plainClose } { c with closeMode := .voidOpcode } rfl
      nodes
  rw [compile_eq, compile_eq, run_plainClose]
  cases hr : ((denoteAll { c with closeMode := .voidOpcode } nodes).forM
      (emit { c with closeMode := .voidOpcode })).run {} with
  | error err e => exact .inl ⟨err, rfl, rfl⟩
  | ok _ e =>
    obtain ⟨hcarries, -⟩ := Emitter.carries_nil.forM_emit hr
    obtain ⟨header, rest, hheader, hbytes, hplain⟩ := e.bytes_plain
    refine .inr ⟨_, _, rfl, rfl, hreports, ?_, header, _, rest, hheader, ?_, hbytes, hplain⟩
    · dsimp only
      rw [hbytes, hplain]
      simp
    · -- The open words are those at the open places of the outline.
      rw [hcarries.map_isNone_openWord, List.nil_append,
        denoteAll_eq_outlineAll c { c with closeMode := .voidOpcode } rfl, List.map_map]
      apply List.map_congr_left
      intro op hop
      have hne := ne_selfClosing_of_mem_outlineAll c nodes op hop
      cases op with
      | none => rfl
      | some op =>
        refine decide_eq_false ?_
        rintro rfl
        exact hne rfl

/-- Whether a forest is compiled, and what is reported of it, does not depend on the mode. -/
theorem map_diagnostics_compile (c : Config) (mode : CloseMode) (nodes : List Node) :
    (compile { c with closeMode := mode } nodes).map (·.diagnostics) =
      (compile c nodes).map (·.diagnostics) := by
  have hplain : ∀ mode, (compile { c with closeMode := mode } nodes).map (·.diagnostics) =
      (compile { c with closeMode := .plainClose } nodes).map (·.diagnostics) := by
    intro mode
    cases mode with
    | plainClose => rfl
    | voidOpcode =>
      rcases compile_closeMode c nodes with ⟨err, hvoid, hplain⟩ |
        ⟨compiled, compiled', hvoid, hplain, hdiffer⟩
      · rw [hvoid, hplain]
      · rw [hvoid, hplain]
        exact congrArg Except.ok hdiffer.diagnostics
  exact (hplain mode).trans (hplain c.closeMode).symm

/-- **Settings change only what they name.** A forest that is compiled with some number of entries
for each table is compiled to the same bytes and reports with any larger one. Whether void elements
have an operation of their own changes neither whether a forest is compiled nor with which error it
is refused, neither the reports nor the size of the image, and of its bytes only the instruction
words at the ends of elements whose tag is void. -/
theorem compile_settings (c : Config) (nodes : List Node) :
    (∀ compiled n, compile c nodes = .ok compiled → c.maxEntries ≤ n →
      compile { c with maxEntries := n } nodes = .ok compiled) ∧
    ((∃ err, compile { c with closeMode := .voidOpcode } nodes = .error err ∧
        compile { c with closeMode := .plainClose } nodes = .error err) ∨
      ∃ compiled compiled', compile { c with closeMode := .voidOpcode } nodes = .ok compiled ∧
        compile { c with closeMode := .plainClose } nodes = .ok compiled' ∧
        compiled.DifferAt ((outlineAll c nodes).map Option.isNone) compiled') := by
  constructor
  · intro compiled n h hn
    exact compile_mono h hn
  · exact compile_closeMode c nodes

/-- Two tags in tables of two entries, and a void element among other operations: a third entry of
room changes nothing, and of the five words the third one depends on the mode. -/
theorem compile_settings_void_child :
    ∃ nodes compiled compiled', nodes = [.element { name := "p" }
        [.element { name := " BR " } [.text "lost" {}], .text "hi" {}]] ∧
      compile { maxEntries := 2 } nodes = .ok compiled ∧
      compile { maxEntries := 3 } nodes = .ok compiled ∧
      compile { closeMode := .plainClose, maxEntries := 2 } nodes = .ok compiled' ∧
      compiled.DifferAt [false, false, true, false, false] compiled' := by
  generalize hr : compile { maxEntries := 2 } [.element { name := "p" }
    [.element { name := " BR " } [.text "lost" {}], .text "hi" {}]] = r
  have hok : r.toOption.isSome := by
    rw [← hr]
    decide +kernel
  have hmarked : (outlineAll { maxEntries := 2 } [.element { name := "p" }
      [.element { name := " BR " } [.text "lost" {}], .text "hi" {}]]).map Option.isNone =
      [false, false, true, false, false] := by
    decide +kernel
  cases r with
  | error err => cases hok
  | ok compiled =>
    obtain ⟨hroom, ⟨err, herr, -⟩ | ⟨v, p, hv, hp, hdiffer⟩⟩ := compile_settings { maxEntries := 2 }
      [.element { name := "p" } [.element { name := " BR " } [.text "lost" {}], .text "hi" {}]]
    · cases hr.symm.trans herr
    · cases hr.symm.trans hv
      rw [hmarked] at hdiffer
      exact ⟨_, compiled, p, rfl, hr, hroom compiled 3 hr (by decide), hp, hdiffer⟩

end Stencil
