import Mathlib.Data.List.Induction
import Stencil.Host

/-!
# Runs of a host

A caller asks a host for sizes and copies in any order, with any selectors and any room. What the
host has cached can be told from the exchanges alone: the template of the last size request, if
that request succeeded and no copy after it did. A size request that fails empties the cache, as a
copy that succeeds does; a copy that fails leaves the cache, and the caller may come back with more
room.

Each phase has two forms. A plain one gives zero where the other gives a reason, and zero is never
a size: the header of an image alone has 48 bytes.

## Main definitions

* `Request`, `Form`, `Call`: what a caller asks for, and in which form
* `Answer`, `Exchange`: what it gets
* `Host.serve`, `Host.run`: one call, and calls in a row
* `Holding`: a host holds the template of a selector, as told from the exchanges
* `Host.Transports`: what a host holds after exchanges, and what it does next

## Main results

* `Host.Follows.serve`: every call keeps the cache as the exchanges tell
* `Host.transports_run`: **two-phase transport, over all runs**
-/

namespace Stencil

open Stencil.Markup Stencil.Wire

/-! ## Calls and exchanges -/

/-- What a caller asks for: the size of a template, or a copy into the room it brings. -/
inductive Request where
  | size (selector : String)
  | copy (destination : List UInt8)
  deriving DecidableEq, Repr

/-- The form of a call. A plain call gives zero where a checked one gives a reason. -/
inductive Form where
  | plain
  | checked
  deriving DecidableEq, Repr

/-- A request in one of its forms. -/
structure Call where
  form : Form
  request : Request
  deriving DecidableEq, Repr

/-- What a call gives: a number, or a number or the reason why there is none. -/
inductive Answer where
  | number (n : Nat)
  | outcome (result : Except TransportError Nat)

/-- Whether a caller takes an answer for a success. -/
def Answer.succeeds : Answer → Bool
  | number n => n ≠ 0
  | outcome result => result.isOk

/-- The answer of a call whose phase has come out so. -/
def Form.answer : Form → Except TransportError Nat → Answer
  | plain, result => .number (Host.orZero result)
  | checked, result => .outcome result

/-- What was asked for, the answer, and the destination after a copy. -/
structure Exchange where
  request : Request
  answer : Answer
  destination : List UInt8

namespace Host

/-- A phase: how it comes out, the destination after it, and the host after it. A size request
brings no destination. -/
def perform (h : Host) : Request → Except TransportError Nat × List UInt8 × Host
  | .size selector => ((h.size selector).1, [], (h.size selector).2)
  | .copy destination => h.copy destination

/-- A call, whose form decides on the answer only. -/
def serve (h : Host) (call : Call) : Exchange × Host :=
  let (result, destination, h') := h.perform call.request
  (⟨call.request, call.form.answer result, destination⟩, h')

/-- Calls in a row: the exchanges, and the host after them. -/
def run (h : Host) : List Call → List Exchange × Host
  | [] => ([], h)
  | call :: rest =>
    let (exchange, h₁) := h.serve call
    let (exchanges, h₂) := h₁.run rest
    (exchange :: exchanges, h₂)

@[simp] theorem run_nil (h : Host) : h.run [] = ([], h) := rfl

/-- The last of calls in a row is served by the host that the others leave. -/
theorem run_snoc (h : Host) (calls : List Call) (call : Call) :
    h.run (calls ++ [call])
      = ((h.run calls).1 ++ [((h.run calls).2.serve call).1], ((h.run calls).2.serve call).2) := by
  induction calls generalizing h with
  | nil => rfl
  | cons first calls ih => simp only [List.cons_append, run, ih]

end Host

/-- After these exchanges a host holds the template of a selector: a size request for it succeeded,
and all that came later are copies that failed. -/
def Holding (history : List Exchange) (selector : String) : Prop :=
  ∃ before x later, history = before ++ x :: later ∧ x.request = .size selector ∧
    x.answer.succeeds = true ∧
    ∀ y ∈ later, (∃ destination, y.request = .copy destination) ∧ y.answer.succeeds = false

section Holding

variable {history : List Exchange} {x : Exchange} {selector : String}

theorem not_holding_nil : ¬ Holding [] selector := by
  rintro ⟨before, x, later, h, -⟩
  simp at h

/-- What a host holds after one more exchange: the template that was asked for, or what it held
before a copy that failed. -/
theorem holding_snoc :
    Holding (history ++ [x]) selector ↔
      (x.request = .size selector ∧ x.answer.succeeds = true) ∨
        (∃ destination, x.request = .copy destination) ∧ x.answer.succeeds = false ∧
          Holding history selector := by
  constructor
  · rintro ⟨before, y, later, h, hy, hsucceeds, hlater⟩
    rcases List.eq_nil_or_concat later with rfl | ⟨later, z, rfl⟩
    · obtain ⟨-, hxy⟩ := List.append_inj' h rfl
      obtain rfl : x = y := by simpa using hxy
      exact .inl ⟨hy, hsucceeds⟩
    · rw [List.concat_eq_append] at h hlater
      have h' : history ++ [x] = (before ++ y :: later) ++ [z] := by rw [h]; simp
      obtain ⟨rfl, hxz⟩ := List.append_inj' h' rfl
      obtain rfl : x = z := by simpa using hxz
      obtain ⟨hx, hfails⟩ := hlater x (by simp)
      refine .inr ⟨hx, hfails, before, y, later, rfl, hy, hsucceeds, ?_⟩
      exact fun w hw => hlater w (List.mem_append_left _ hw)
  · rintro (⟨hx, hsucceeds⟩ | ⟨hx, hfails, before, y, later, rfl, hy, hsucceeds, hlater⟩)
    · exact ⟨history, x, [], rfl, hx, hsucceeds, by simp⟩
    · refine ⟨before, y, later ++ [x], by simp, hy, hsucceeds, ?_⟩
      intro z hz
      rcases List.mem_append.mp hz with hz | hz
      · exact hlater z hz
      · rw [List.mem_singleton.mp hz]
        exact ⟨hx, hfails⟩

end Holding

/-! ## Single calls -/

theorem Form.succeeds_answer_error {form : Form} (err : TransportError) :
    (form.answer (.error err)).succeeds = false := by
  cases form <;> rfl

/-- A success is taken for one in both forms, as long as its number is not zero. -/
theorem Form.succeeds_answer_ok {form : Form} {n : Nat} (hn : n ≠ 0) :
    (form.answer (.ok n)).succeeds = true := by
  cases form with
  | plain => exact decide_eq_true hn
  | checked => rfl

/-- The header of an image alone has 48 bytes. -/
theorem Wire.Image.headerSize_le_length_bytes (i : Image) : headerSize ≤ i.bytes.length := by
  simp only [Image.bytes, List.length_append, Header.length_bytes]
  omega

theorem headerSize_le_of_compile {c : Config} {nodes : List Node} {compiled : Compiled}
    (h : compile c nodes = .ok compiled) : headerSize ≤ compiled.bytes.length := by
  rw [compile] at h
  split at h
  · cases h
    exact Image.headerSize_le_length_bytes _
  · cases h

theorem ne_zero_of_headerSize_le {n : Nat} (h : headerSize ≤ n) : n ≠ 0 := by
  rw [headerSize] at h
  omega

namespace Host

variable {h : Host} {selector : String} {bytes : List UInt8}

/-- A template is what compiling the children of the selected element gives. -/
theorem template_eq_ok_iff :
    h.template selector = .ok bytes ↔ ∃ element compiled,
      select h.document.nodes selector = some element ∧
        compile h.config element.children = .ok compiled ∧ compiled.bytes = bytes := by
  rw [template]
  cases select h.document.nodes selector with
  | none => simp
  | some element =>
    cases hc : compile h.config element.children with
    | error err => simp [hc]
    | ok compiled => simp [hc]

theorem headerSize_le_of_template (ht : h.template selector = .ok bytes) :
    headerSize ≤ bytes.length := by
  obtain ⟨element, compiled, -, hcompile, rfl⟩ := template_eq_ok_iff.mp ht
  exact headerSize_le_of_compile hcompile

/-- **What a size request does**: it fills the cache with the template, or empties it. -/
theorem serve_size_cases (h : Host) (form : Form) (selector : String) :
    (∃ bytes, h.template selector = .ok bytes ∧ h.serve ⟨form, .size selector⟩
      = (⟨.size selector, form.answer (.ok bytes.length), []⟩, { h with cached := some bytes })) ∨
    ∃ err, h.template selector = .error err ∧ h.serve ⟨form, .size selector⟩
      = (⟨.size selector, form.answer (.error err), []⟩, { h with cached := none }) := by
  cases ht : h.template selector with
  | ok bytes =>
    refine .inl ⟨bytes, rfl, ?_⟩
    simp only [serve, perform, size, ht]
  | error err =>
    refine .inr ⟨err, rfl, ?_⟩
    simp only [serve, perform, size, ht]

/-- **What a copy does**: it hands over what is cached, or changes nothing, since nothing is cached
or there is no room for it. -/
theorem serve_copy_cases (h : Host) (form : Form) (destination : List UInt8) :
    (∃ bytes, h.cached = some bytes ∧ bytes.length ≤ destination.length ∧
      h.serve ⟨form, .copy destination⟩
        = (⟨.copy destination, form.answer (.ok bytes.length),
            bytes ++ destination.drop bytes.length⟩, { h with cached := none })) ∨
    (∀ bytes, h.cached = some bytes → destination.length < bytes.length) ∧
      ∃ err, h.serve ⟨form, .copy destination⟩
        = (⟨.copy destination, form.answer (.error err), destination⟩, h) := by
  cases hc : h.cached with
  | none =>
    refine .inr ⟨by simp, .nothingCached, ?_⟩
    simp only [serve, perform, copy, hc]
  | some bytes =>
    by_cases hlt : destination.length < bytes.length
    · refine .inr ⟨by simpa using hlt, .tooSmall bytes.length destination.length, ?_⟩
      simp only [serve, perform, copy, hc, if_pos hlt]
    · refine .inl ⟨bytes, rfl, Nat.le_of_not_lt hlt, ?_⟩
      simp only [serve, perform, copy, hc, if_neg hlt]

/-! ## The cache, as told from the exchanges -/

/-- A host whose cache is what the exchanges tell. -/
structure Follows (h : Host) (document : Document) (config : Config) (history : List Exchange) :
    Prop where
  document_eq : h.document = document
  config_eq : h.config = config
  held : ∀ bytes, h.cached = some bytes → ∃ selector, Holding history selector
  holding : ∀ selector, Holding history selector →
    ∃ bytes, h.template selector = .ok bytes ∧ h.cached = some bytes

variable {document : Document} {config : Config} {history : List Exchange}

theorem follows_nil (document : Document) (config : Config) :
    Follows { document, config } document config [] where
  document_eq := rfl
  config_eq := rfl
  held _ hc := by cases hc
  holding _ hh := absurd hh not_holding_nil

/-- What is cached is never shorter than a header. -/
theorem Follows.headerSize_le (hf : h.Follows document config history)
    (hc : h.cached = some bytes) : headerSize ≤ bytes.length := by
  obtain ⟨selector, hholding⟩ := hf.held bytes hc
  obtain ⟨bytes', ht, hc'⟩ := hf.holding selector hholding
  obtain rfl : bytes' = bytes := Option.some.inj (hc'.symm.trans hc)
  exact headerSize_le_of_template ht

theorem Follows.serve_size (hf : h.Follows document config history) (form : Form)
    (selector : String) :
    (h.serve ⟨form, .size selector⟩).2.Follows document config
      (history ++ [(h.serve ⟨form, .size selector⟩).1]) := by
  rcases h.serve_size_cases form selector with ⟨bytes, ht, hserve⟩ | ⟨err, -, hserve⟩
  · -- The request succeeds, also in its plain form: it is the last one, and no template is empty.
    have hn : bytes.length ≠ 0 := ne_zero_of_headerSize_le (headerSize_le_of_template ht)
    rw [hserve]
    refine ⟨hf.document_eq, hf.config_eq, ?_, ?_⟩
    · intro _ _
      exact ⟨selector, holding_snoc.mpr (.inl ⟨rfl, Form.succeeds_answer_ok hn⟩)⟩
    · intro other hother
      rcases holding_snoc.mp hother with ⟨hreq, -⟩ | ⟨⟨_, hreq⟩, -⟩
      · cases hreq
        exact ⟨bytes, ht, rfl⟩
      · cases hreq
  · rw [hserve]
    refine ⟨hf.document_eq, hf.config_eq, ?_, ?_⟩
    · intro _ hc
      cases hc
    · intro other hother
      rcases holding_snoc.mp hother with ⟨-, hsucceeds⟩ | ⟨⟨_, hreq⟩, -⟩
      · rw [Form.succeeds_answer_error] at hsucceeds
        cases hsucceeds
      · cases hreq

theorem Follows.serve_copy (hf : h.Follows document config history) (form : Form)
    (destination : List UInt8) :
    (h.serve ⟨form, .copy destination⟩).2.Follows document config
      (history ++ [(h.serve ⟨form, .copy destination⟩).1]) := by
  rcases h.serve_copy_cases form destination with ⟨bytes, hc, -, hserve⟩ | ⟨-, err, hserve⟩
  · have hn : bytes.length ≠ 0 := ne_zero_of_headerSize_le (hf.headerSize_le hc)
    rw [hserve]
    refine ⟨hf.document_eq, hf.config_eq, ?_, ?_⟩
    · intro _ hc
      cases hc
    · intro other hother
      rcases holding_snoc.mp hother with ⟨hreq, -⟩ | ⟨-, hfails, -⟩
      · cases hreq
      · rw [Form.succeeds_answer_ok hn] at hfails
        cases hfails
  · rw [hserve]
    refine ⟨hf.document_eq, hf.config_eq, ?_, ?_⟩
    · intro bytes hc
      obtain ⟨selector, hholding⟩ := hf.held bytes hc
      exact ⟨selector, holding_snoc.mpr
        (.inr ⟨⟨_, rfl⟩, Form.succeeds_answer_error err, hholding⟩)⟩
    · intro other hother
      rcases holding_snoc.mp hother with ⟨hreq, -⟩ | ⟨-, -, hholding⟩
      · cases hreq
      · exact hf.holding other hholding

/-- **Every call keeps the cache as the exchanges tell.** -/
theorem Follows.serve (hf : h.Follows document config history) (call : Call) :
    (h.serve call).2.Follows document config (history ++ [(h.serve call).1]) := by
  obtain ⟨form, selector | destination⟩ := call
  · exact hf.serve_size form selector
  · exact hf.serve_copy form destination

/-- Over all runs, the cache is what the exchanges tell. -/
theorem follows_run (document : Document) (config : Config) (calls : List Call) :
    (run { document, config } calls).2.Follows document config
      (run { document, config } calls).1 := by
  -- The last call is split off, since it is served by what the calls before it leave.
  induction calls using List.reverseRecOn with
  | nil => exact follows_nil document config
  | append_singleton calls call ih =>
    rw [run_snoc]
    exact ih.serve call

/-! ## What a host does next -/

/-- What a host holds after exchanges, and what it does next. -/
structure Transports (h : Host) (document : Document) (config : Config)
    (history : List Exchange) : Prop where
  /-- The cache is filled exactly if the exchanges tell so. -/
  filled : h.cached.isSome = true ↔ ∃ selector, Holding history selector
  /-- It then holds the template that the last size request asked for. -/
  content : ∀ selector, Holding history selector → ∃ element compiled,
    select document.nodes selector = some element ∧
      compile config element.children = .ok compiled ∧ h.cached = some compiled.bytes
  /-- A size request succeeds exactly if there is such a template. -/
  sized : ∀ form selector, (h.serve ⟨form, .size selector⟩).1.answer.succeeds = true ↔
    ∃ element compiled, select document.nodes selector = some element ∧
      compile config element.children = .ok compiled
  /-- It then gives the size of the template, and puts it into the cache. -/
  measured : ∀ form selector element compiled, select document.nodes selector = some element →
    compile config element.children = .ok compiled →
    h.serve ⟨form, .size selector⟩
      = (⟨.size selector, form.answer (.ok compiled.bytes.length), []⟩,
          { h with cached := some compiled.bytes })
  /-- If it fails, it empties the cache. -/
  emptied : ∀ form selector, (h.serve ⟨form, .size selector⟩).1.answer.succeeds = false →
    (h.serve ⟨form, .size selector⟩).2.cached = none
  /-- A copy succeeds exactly if the cache is filled and the destination is at least as long. -/
  fits : ∀ form destination, (h.serve ⟨form, .copy destination⟩).1.answer.succeeds = true ↔
    ∃ bytes, h.cached = some bytes ∧ bytes.length ≤ destination.length
  /-- It then fills the front of the destination, leaves all behind it, and empties the cache. -/
  copied : ∀ form destination bytes, h.cached = some bytes → bytes.length ≤ destination.length →
    ∃ after, h.serve ⟨form, .copy destination⟩
        = (⟨.copy destination, form.answer (.ok bytes.length), after⟩, { h with cached := none }) ∧
      after.length = destination.length ∧ after.take bytes.length = bytes ∧
      after.drop bytes.length = destination.drop bytes.length
  /-- A copy that fails leaves destination and host as they were. -/
  refused : ∀ form destination,
    (h.serve ⟨form, .copy destination⟩).1.answer.succeeds = false →
      (h.serve ⟨form, .copy destination⟩).1.destination = destination ∧
        (h.serve ⟨form, .copy destination⟩).2 = h
  /-- A plain call gives the number of the checked one, or zero, which is never a size. -/
  forms : ∀ request, ∃ result, (h.serve ⟨.checked, request⟩).1.answer = .outcome result ∧
    (h.serve ⟨.plain, request⟩).1.answer = .number (orZero result) ∧
    (h.serve ⟨.plain, request⟩).1.destination = (h.serve ⟨.checked, request⟩).1.destination ∧
    (h.serve ⟨.plain, request⟩).2 = (h.serve ⟨.checked, request⟩).2 ∧
    (orZero result = 0 ↔ ∃ err, result = .error err) ∧ ∀ n, result = .ok n → 48 ≤ n

/-- A size request succeeds exactly if its selector picks a template. -/
theorem succeeds_serve_size_iff (h : Host) (form : Form) (selector : String) :
    (h.serve ⟨form, .size selector⟩).1.answer.succeeds = true ↔
      ∃ bytes, h.template selector = .ok bytes := by
  rcases h.serve_size_cases form selector with ⟨bytes, ht, hserve⟩ | ⟨err, ht, hserve⟩
  · rw [hserve, ht]
    have hn := ne_zero_of_headerSize_le (headerSize_le_of_template ht)
    exact iff_of_true (Form.succeeds_answer_ok hn) ⟨bytes, rfl⟩
  · rw [hserve, ht, Form.succeeds_answer_error]
    simp

/-- A copy succeeds exactly if there is room for what is cached. -/
theorem Follows.succeeds_serve_copy_iff (hf : h.Follows document config history) (form : Form)
    (destination : List UInt8) :
    (h.serve ⟨form, .copy destination⟩).1.answer.succeeds = true ↔
      ∃ bytes, h.cached = some bytes ∧ bytes.length ≤ destination.length := by
  rcases h.serve_copy_cases form destination with ⟨bytes, hc, hle, hserve⟩ | ⟨hlt, err, hserve⟩
  · rw [hserve]
    have hn := ne_zero_of_headerSize_le (hf.headerSize_le hc)
    exact iff_of_true (Form.succeeds_answer_ok hn) ⟨bytes, hc, hle⟩
  · rw [hserve, Form.succeeds_answer_error]
    refine iff_of_false Bool.false_ne_true ?_
    rintro ⟨bytes, hc, hle⟩
    exact Nat.not_le_of_lt (hlt bytes hc) hle

/-- No phase comes out with a number below the size of a header. -/
theorem Follows.headerSize_le_of_perform (hf : h.Follows document config history)
    {request : Request} {n : Nat} (hn : (h.perform request).1 = .ok n) : headerSize ≤ n := by
  have hanswer : (h.serve ⟨.checked, request⟩).1.answer = .outcome (.ok n) :=
    congrArg Answer.outcome hn
  cases request with
  | size selector =>
    rcases h.serve_size_cases .checked selector with ⟨bytes, ht, hserve⟩ | ⟨err, -, hserve⟩
    · rw [hserve] at hanswer
      cases hanswer
      exact headerSize_le_of_template ht
    · rw [hserve] at hanswer
      cases hanswer
  | copy destination =>
    rcases h.serve_copy_cases .checked destination with ⟨bytes, hc, -, hserve⟩ | ⟨-, err, hserve⟩
    · rw [hserve] at hanswer
      cases hanswer
      exact hf.headerSize_le hc
    · rw [hserve] at hanswer
      cases hanswer

theorem Follows.transports (hf : h.Follows document config history) :
    h.Transports document config history where
  filled := by
    rw [Option.isSome_iff_exists]
    constructor
    · rintro ⟨bytes, hc⟩
      exact hf.held bytes hc
    · rintro ⟨selector, hholding⟩
      obtain ⟨bytes, -, hc⟩ := hf.holding selector hholding
      exact ⟨bytes, hc⟩
  content selector hholding := by
    obtain ⟨bytes, ht, hc⟩ := hf.holding selector hholding
    rw [template_eq_ok_iff, hf.document_eq, hf.config_eq] at ht
    obtain ⟨element, compiled, hselect, hcompile, rfl⟩ := ht
    exact ⟨element, compiled, hselect, hcompile, hc⟩
  sized form selector := by
    rw [succeeds_serve_size_iff]
    simp only [template_eq_ok_iff, hf.document_eq, hf.config_eq]
    constructor
    · rintro ⟨bytes, element, compiled, hselect, hcompile, -⟩
      exact ⟨element, compiled, hselect, hcompile⟩
    · rintro ⟨element, compiled, hselect, hcompile⟩
      exact ⟨_, element, compiled, hselect, hcompile, rfl⟩
  measured form selector element compiled hselect hcompile := by
    have ht : h.template selector = .ok compiled.bytes := by
      rw [template_eq_ok_iff, hf.document_eq, hf.config_eq]
      exact ⟨element, compiled, hselect, hcompile, rfl⟩
    rcases h.serve_size_cases form selector with ⟨bytes, ht', hserve⟩ | ⟨err, ht', -⟩
    · rw [ht] at ht'
      cases ht'
      exact hserve
    · rw [ht] at ht'
      cases ht'
  emptied form selector hfails := by
    rcases h.serve_size_cases form selector with ⟨bytes, ht, -⟩ | ⟨err, -, hserve⟩
    · rw [(h.succeeds_serve_size_iff form selector).mpr ⟨bytes, ht⟩] at hfails
      cases hfails
    · rw [hserve]
  fits form destination := hf.succeeds_serve_copy_iff form destination
  copied form destination bytes hc hle := by
    rcases h.serve_copy_cases form destination with ⟨bytes', hc', -, hserve⟩ | ⟨hlt, -⟩
    · obtain rfl : bytes' = bytes := Option.some.inj (hc'.symm.trans hc)
      refine ⟨_, hserve, ?_, List.take_left, List.drop_left⟩
      rw [List.length_append, List.length_drop]
      omega
    · exact absurd hle (Nat.not_le_of_lt (hlt bytes hc))
  refused form destination hfails := by
    rcases h.serve_copy_cases form destination with ⟨bytes, hc, hle, -⟩ | ⟨-, err, hserve⟩
    · rw [(hf.succeeds_serve_copy_iff form destination).mpr ⟨bytes, hc, hle⟩] at hfails
      cases hfails
    · rw [hserve]
      exact ⟨rfl, rfl⟩
  forms request := by
    refine ⟨(h.perform request).1, rfl, rfl, rfl, rfl, ?_, fun n => hf.headerSize_le_of_perform⟩
    cases hr : (h.perform request).1 with
    | ok n => simpa [orZero] using ne_zero_of_headerSize_le (hf.headerSize_le_of_perform hr)
    | error err => simp [orZero]

/-- **Two-phase transport, over all runs.** Whatever sizes and copies a caller has asked a host
for, and in whatever forms, the host holds what the exchanges tell, and serves the next call by
it. -/
theorem transports_run (document : Document) (config : Config) (calls : List Call) :
    (run { document, config } calls).2.Transports document config
      (run { document, config } calls).1 :=
  (follows_run document config calls).transports

end Host

end Stencil
