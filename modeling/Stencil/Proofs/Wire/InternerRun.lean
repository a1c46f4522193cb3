import Mathlib.Data.List.Forall2
import Stencil.Proofs.Wire.Interning

/-!
# Runs of an interner

An interner is asked to intern strings, to look strings up and to follow references, in any order.
What it holds after a run can be told from the requests: the strings that were interned, each once,
in the order in which they came first. Whatever reference was given out for a string on the way is
still the reference of that string, and names its bytes.

An interner derives its byte table and its references from its strings. A pool keeps both instead,
and grows them by each new string. The two answer alike, and hold the same bytes and references at
all times.

## Main definitions

* `Interner.Request`, `Interner.Answer`, `Interner.serve`: one request and its answer
* `serveAll`: requests in a row, to whatever serves them
* `Pool`, `Interner.pool`: a byte table and references that are kept, and those of an interner
* `Interner.Lawful`: what holds of an interner and its answers after requests

## Main results

* `serveAll_map`: what agrees on each request agrees on runs
* `Interner.pool_serve`: an interner and its pool agree on each request
* `Interner.exists_serve`: what one request does to the strings
* `Interner.exists_serveAll`: what a run does to the strings
* `Interner.lawful_serveAll`: **the laws of an interner, over all runs**
-/

namespace Stencil.Wire

open Stencil.Text

/-! ## Requests -/

namespace Interner

/-- What an interner is asked for: to intern a string, to look one up, or to follow a reference. -/
inductive Request where
  | intern (s : String)
  | get (s : String)
  | resolve (r : StringRef)
  deriving DecidableEq, Repr

/-- The reference of a string, or the text that a reference names. -/
inductive Answer where
  | ref (r : Option StringRef)
  | text (s : Option String)
  deriving DecidableEq, Repr

/-- The string whose reference is asked for. -/
def Request.string? : Request → Option String
  | intern s => some s
  | get s => some s
  | resolve _ => none

/-- The string that is to be interned. -/
def Request.interned? : Request → Option String
  | intern s => some s
  | _ => none

/-- One request: the answer, and the interner after it. -/
def serve (i : Interner) : Request → Except Nat (Answer × Interner)
  | .intern s => (i.intern s).map fun (r, j) => (.ref (some r), j)
  | .get s => .ok (.ref (i.get? s), i)
  | .resolve r => .ok (.text (i.resolve? r), i)

/-- The strings that are interned by requests, each once, in the order in which they come first. -/
def distinct (requests : List Request) : List String :=
  (requests.filterMap Request.interned?).eraseDups

end Interner

open Interner (Request Answer distinct)

/-- Requests in a row: the answers, and the state after them. -/
def serveAll {σ : Type} (serve : σ → Request → Except Nat (Answer × σ)) :
    σ → List Request → Except Nat (List Answer × σ)
  | x, [] => .ok ([], x)
  | x, request :: rest =>
    match serve x request with
    | .error size => .error size
    | .ok (answer, y) => (serveAll serve y rest).map fun (answers, z) => (answer :: answers, z)

/-- What agrees on each request agrees on runs. -/
theorem serveAll_map {σ τ : Type} {serve : σ → Request → Except Nat (Answer × σ)}
    {serve' : τ → Request → Except Nat (Answer × τ)} {f : σ → τ}
    (h : ∀ x request, serve' (f x) request = (serve x request).map fun (a, y) => (a, f y))
    (x : σ) (requests : List Request) :
    serveAll serve' (f x) requests = (serveAll serve x requests).map fun (as, y) => (as, f y) := by
  induction requests generalizing x with
  | nil => rfl
  | cons request rest ih =>
    rw [serveAll, serveAll, h]
    cases serve x request with
    | error size => rfl
    | ok result =>
      obtain ⟨answer, y⟩ := result
      simp only [Except.map, ih]
      cases serveAll serve y rest <;> rfl

/-! ## Pools -/

/-- A byte table, and the strings in it with their references. -/
structure Pool where
  bytes : List UInt8 := []
  refs : List (String × StringRef) := []

namespace Pool

/-- The reference of a string. A new string is added at the end of the byte table. -/
def intern (p : Pool) (s : String) : Except Nat (StringRef × Pool) :=
  match p.refs.lookup s with
  | some r => .ok (r, p)
  | none =>
    if p.bytes.length + s.utf8ByteSize < wordLimit then
      let r : StringRef := ⟨.ofNat p.bytes.length, .ofNat s.utf8ByteSize⟩
      .ok (r, ⟨p.bytes ++ Utf8.encode s, p.refs ++ [(s, r)]⟩)
    else .error (p.bytes.length + s.utf8ByteSize)

/-- One request: the answer, and the pool after it. -/
def serve (p : Pool) : Request → Except Nat (Answer × Pool)
  | .intern s => (p.intern s).map fun (r, q) => (.ref (some r), q)
  | .get s => .ok (.ref (p.refs.lookup s), p)
  | .resolve r => .ok (.text ((r.slice? p.bytes).bind Utf8.decode?), p)

end Pool

namespace Interner

variable {i j : Interner} {s t : String} {r : StringRef} {offset : Nat} {l : List String}

/-- The byte table and the references of an interner. -/
def pool (i : Interner) : Pool :=
  ⟨i.bytes, i.entries.map Prod.swap⟩

theorem lookup_entriesFrom (s : String) (l : List String) (offset : Nat) :
    ((entriesFrom offset l).map Prod.swap).lookup s = locate s l offset := by
  induction l generalizing offset with
  | nil => rfl
  | cons t rest ih =>
    by_cases h : t = s
    · simp [entriesFrom, locate, h]
    · have hne : (s == t) = false := by simpa using Ne.symm h
      simp [entriesFrom, locate, h, List.lookup_cons, hne, ih]

theorem lookup_pool (i : Interner) (s : String) : i.pool.refs.lookup s = i.get? s :=
  lookup_entriesFrom s i.strings 0

theorem entriesFrom_append (l m : List String) (offset : Nat) :
    entriesFrom offset (l ++ m) =
      entriesFrom offset l ++ entriesFrom (offset + stringBytes l) m := by
  induction l generalizing offset with
  | nil => simp [entriesFrom]
  | cons t rest ih => simp [entriesFrom, ih, Nat.add_assoc]

theorem map_snd_entriesFrom (l : List String) (offset : Nat) :
    (entriesFrom offset l).map Prod.snd = l := by
  induction l generalizing offset with
  | nil => rfl
  | cons t rest ih => rw [entriesFrom, List.map_cons, ih]

/-- Each reference begins behind the strings in front of its own. -/
theorem getElem?_entriesFrom {k : Nat} (h : (entriesFrom offset l)[k]? = some (r, s)) :
    l[k]? = some s ∧ r = ⟨.ofNat (offset + stringBytes (l.take k)), .ofNat s.utf8ByteSize⟩ := by
  induction l generalizing offset k with
  | nil => cases h
  | cons t rest ih =>
    cases k with
    | zero =>
      cases h
      exact ⟨rfl, rfl⟩
    | succ k =>
      obtain ⟨hs, rfl⟩ := ih h
      exact ⟨hs, by rw [List.take_succ_cons, stringBytes_cons, Nat.add_assoc]⟩

/-- A new string adds its bytes behind the byte table, and its reference behind the others. -/
theorem pool_of_append (h : j.strings = i.strings ++ [s]) :
    j.pool = ⟨i.pool.bytes ++ Utf8.encode s,
      i.pool.refs ++ [(s, ⟨.ofNat i.byteSize, .ofNat s.utf8ByteSize⟩)]⟩ := by
  simp [pool, bytes, entries, h, entriesFrom_append, entriesFrom, byteSize]

/-- In strings of which no two are the same, each is found at its own place. -/
theorem locate_of_mem_entriesFrom (hl : l.Nodup) (h : (r, s) ∈ entriesFrom offset l) :
    locate s l offset = some r := by
  induction l generalizing offset with
  | nil => cases h
  | cons t rest ih =>
    obtain ⟨ht, hrest⟩ := List.nodup_cons.mp hl
    rcases List.mem_cons.mp h with hhead | htail
    · cases hhead
      rw [locate, if_pos rfl]
    · have hs : s ∈ rest := by
        rw [← map_snd_entriesFrom rest (offset + t.utf8ByteSize)]
        exact List.mem_map_of_mem htail
      have hne : t ≠ s := fun hts => ht (hts ▸ hs)
      rw [locate, if_neg hne]
      exact ih hrest htail

theorem pool_intern (i : Interner) (s : String) :
    i.pool.intern s = (i.intern s).map fun (r, j) => (r, j.pool) := by
  have hlength : i.pool.bytes.length = i.byteSize := i.length_bytes
  cases hget : i.get? s with
  | some r => simp [Pool.intern, lookup_pool, hget, intern_of_get? hget, Except.map]
  | none =>
    by_cases hroom : i.byteSize + s.utf8ByteSize < wordLimit
    · obtain ⟨j, hintern, hj⟩ := intern_of_lt hget hroom
      simp [Pool.intern, lookup_pool, hlength, hget, hroom, hintern, Except.map, pool_of_append hj]
    · have hfull := intern_of_le hget (Nat.not_lt.mp hroom)
      simp [Pool.intern, lookup_pool, hlength, hget, hroom, hfull, Except.map]

/-- **An interner and its pool agree on each request.** -/
theorem pool_serve (i : Interner) (request : Request) :
    i.pool.serve request = (i.serve request).map fun (a, j) => (a, j.pool) := by
  cases request with
  | intern s =>
    rw [Pool.serve, serve, pool_intern]
    cases i.intern s <;> rfl
  | get s =>
    rw [Pool.serve, lookup_pool]
    rfl
  | resolve r => rfl

/-! ## What requests leave behind -/

/-- An answer that is good for an interner: a string that was interned has a reference, and a
reference that was given out for a string is still that of the string. -/
structure Good (i : Interner) (request : Request) (answer : Answer) : Prop where
  interned : ∀ s, request = .intern s → ∃ r, answer = .ref (some r)
  kept : ∀ s r, request.string? = some s → answer = .ref (some r) → i.get? s = some r

theorem Good.mono {request : Request} {answer : Answer} (h : Good i request answer)
    (hp : i.strings <+: j.strings) : Good j request answer where
  interned := h.interned
  kept s r hs hr := get?_of_isPrefix hp (h.kept s r hs hr)

theorem eraseDups_append_singleton (l : List String) (s : String) :
    (l ++ [s]).eraseDups = if s ∈ l.eraseDups then l.eraseDups else l.eraseDups ++ [s] := by
  rw [List.eraseDups_append, List.removeAll]
  by_cases h : s ∈ l
  · simp [h, List.mem_eraseDups]
  · simp [h, List.mem_eraseDups, List.eraseDups_cons]

/-- The strings of fewer requests come first. -/
theorem distinct_isPrefix (requests more : List Request) :
    distinct requests <+: distinct (requests ++ more) := by
  rw [distinct, distinct, List.filterMap_append, List.eraseDups_append]
  exact List.prefix_append _ _

/-- Other requests add no strings. -/
theorem distinct_append_of_none {seen : List Request} {request : Request}
    (h : request.interned? = none) : distinct (seen ++ [request]) = distinct seen := by
  rw [distinct, List.filterMap_append, List.filterMap_cons_none h, List.filterMap_nil,
    List.append_nil, distinct]

theorem stringBytes_le_of_isPrefix {l m : List String} (h : l <+: m) :
    stringBytes l ≤ stringBytes m := by
  obtain ⟨more, rfl⟩ := h
  rw [stringBytes_append]
  exact Nat.le_add_right _ _

/-- **What one request does to the strings**: it succeeds if there is room, adds a string that is
interned for the first time, and is answered well. -/
theorem exists_serve {seen : List Request} {request : Request} (hi : i.strings = distinct seen)
    (hfits : stringBytes (distinct (seen ++ [request])) < wordLimit) :
    ∃ answer j, i.serve request = .ok (answer, j) ∧ j.strings = distinct (seen ++ [request]) ∧
      Good j request answer := by
  cases request with
  | intern s =>
    have hnext : distinct (seen ++ [.intern s]) =
        if s ∈ i.strings then i.strings else i.strings ++ [s] := by
      rw [hi, distinct, List.filterMap_append]
      exact eraseDups_append_singleton _ s
    rw [hnext] at hfits ⊢
    obtain ⟨r, j, hintern⟩ : ∃ r j, i.intern s = .ok (r, j) := by
      cases hget : i.get? s with
      | some r => exact ⟨r, i, intern_of_get? hget⟩
      | none =>
        rw [if_neg (get?_eq_none_iff.mp hget), stringBytes_append] at hfits
        obtain ⟨j, hintern, -⟩ := intern_of_lt hget (by simpa [byteSize] using hfits)
        exact ⟨_, j, hintern⟩
    obtain ⟨hj, hget⟩ := intern_eq_ok hintern
    refine ⟨.ref (some r), j, by rw [serve, hintern]; rfl, hj, fun _ _ => ⟨r, rfl⟩, ?_⟩
    rintro _ _ ⟨⟩ ⟨⟩
    exact hget
  | get s =>
    refine ⟨_, i, rfl, hi.trans (distinct_append_of_none rfl).symm, by simp, ?_⟩
    rintro _ r ⟨⟩ hr
    simpa using hr
  | resolve r =>
    refine ⟨_, i, rfl, hi.trans (distinct_append_of_none rfl).symm, by simp, ?_⟩
    rintro _ _ ⟨⟩ -

/-- **What a run does to the strings**: it succeeds if there is room for all strings, holds each
string once in the order of first use, and all its answers stay good. -/
theorem exists_serveAll {seen : List Request} (hi : i.strings = distinct seen)
    (requests : List Request)
    (hfits : stringBytes (distinct (seen ++ requests)) < wordLimit) :
    ∃ answers j, serveAll serve i requests = .ok (answers, j) ∧
      j.strings = distinct (seen ++ requests) ∧ i.strings <+: j.strings ∧
      List.Forall₂ (Good j) requests answers := by
  -- The requests so far are carried along: they settle which strings are new.
  induction requests generalizing i seen with
  | nil => exact ⟨[], i, rfl, by rw [List.append_nil, hi], List.prefix_rfl, .nil⟩
  | cons request rest ih =>
    have hsplit : seen ++ request :: rest = seen ++ [request] ++ rest := by simp
    rw [hsplit] at hfits ⊢
    have hroom : stringBytes (distinct (seen ++ [request])) < wordLimit :=
      Nat.lt_of_le_of_lt (stringBytes_le_of_isPrefix (distinct_isPrefix _ rest)) hfits
    obtain ⟨answer, i₁, hserve, hi₁, hgood⟩ := exists_serve hi hroom
    obtain ⟨answers, j, hrun, hj, hp, hgoods⟩ := ih hi₁ hfits
    refine ⟨answer :: answers, j, ?_, hj, ?_, .cons (hgood.mono hp) hgoods⟩
    · simp only [serveAll, hserve, hrun]
      rfl
    · refine List.IsPrefix.trans ?_ hp
      rw [hi, hi₁]
      exact distinct_isPrefix seen [request]

/-! ## The laws -/

/-- What holds of an interner and the answers that it gave, after requests to an empty one. -/
structure Lawful (requests : List Request) (answers : List Answer) (i : Interner) : Prop where
  /-- The strings are those that were interned, each once, in the order of first use. -/
  size : i.strings.length = (distinct requests).length
  bytes : i.bytes = (distinct requests).flatMap Utf8.encode
  listed : i.entries.map Prod.snd = distinct requests
  /-- The references are contiguous. -/
  contiguous : ∀ (k : Nat) (r : StringRef) (s : String), i.entries[k]? = some (r, s) →
    r.offset.toNat = stringBytes ((distinct requests).take k) ∧
      r.length.toNat = (Utf8.encode s).length
  /-- A reference that is listed is the one that is looked up. -/
  entry : ∀ r s, (r, s) ∈ i.entries → i.get? s = some r
  answered : answers.length = requests.length
  /-- Interning returns a reference. -/
  returned : ∀ (k : Nat) (s : String), requests[k]? = some (.intern s) →
    ∃ r, answers[k]? = some (.ref (some r))
  /-- A reference that was returned for a string is still its reference, and names its text. -/
  kept : ∀ (k : Nat) (request : Request) (s : String) (r : StringRef),
    requests[k]? = some request → request.string? = some s →
    answers[k]? = some (.ref (some r)) → i.get? s = some r ∧ i.resolve? r = some s
  unknown : ∀ s, i.get? s = none ↔ .intern s ∉ requests
  /-- Equal references are those of equal strings. -/
  injective : ∀ (k l : Nat) (s t : String), requests[k]? = some (.intern s) →
    requests[l]? = some (.intern t) → (answers[k]? = answers[l]? ↔ s = t)
  /-- Interning a string again, looking up and following references change nothing. -/
  idle : ∀ request, (∀ s, request = .intern s → .intern s ∈ requests) →
    ∃ answer, i.serve request = .ok (answer, i)

theorem resolve?_of_get? (h : i.get? s = some r) : i.resolve? r = some s := by
  rw [resolve?, slice?_of_get? h, Option.bind_some, Utf8.decode?_encode]

theorem mem_distinct {requests : List Request} : s ∈ distinct requests ↔ .intern s ∈ requests := by
  rw [distinct, List.mem_eraseDups, List.mem_filterMap]
  constructor
  · rintro ⟨request, hmem, hs⟩
    cases request with
    | intern t =>
      cases hs
      exact hmem
    | get t => cases hs
    | resolve r => cases hs
  · intro hmem
    exact ⟨_, hmem, rfl⟩

theorem stringBytes_take_add_le {k : Nat} (h : l[k]? = some s) :
    stringBytes (l.take k) + s.utf8ByteSize ≤ stringBytes l := by
  have hle := stringBytes_le_of_isPrefix (List.take_prefix (k + 1) l)
  rw [List.take_add_one, h, Option.toList_some, stringBytes_append, stringBytes_cons,
    stringBytes_nil] at hle
  exact hle

section Goods

variable {requests : List Request} {answers : List Answer}

theorem good_of_getElem? (hgoods : List.Forall₂ (Good i) requests answers) {k : Nat}
    {request : Request} {answer : Answer} (hrequest : requests[k]? = some request)
    (hanswer : answers[k]? = some answer) : Good i request answer := by
  obtain ⟨hk, rfl⟩ := List.getElem?_eq_some_iff.mp hrequest
  obtain ⟨hk', rfl⟩ := List.getElem?_eq_some_iff.mp hanswer
  exact hgoods.get hk hk'

/-- Among good answers, a string that was interned has the reference that it still has. -/
theorem exists_ref_of_getElem? (hgoods : List.Forall₂ (Good i) requests answers) {k : Nat}
    (hrequest : requests[k]? = some (.intern s)) :
    ∃ r, answers[k]? = some (.ref (some r)) ∧ i.get? s = some r := by
  have hk : k < answers.length :=
    hgoods.length_eq ▸ (List.getElem?_eq_some_iff.mp hrequest).1
  have hanswer := List.getElem?_eq_getElem hk
  have good := good_of_getElem? hgoods hrequest hanswer
  obtain ⟨r, hr⟩ := good.interned s rfl
  exact ⟨r, hanswer.trans (congrArg some hr), good.kept s r rfl hr⟩

/-- An interner that holds the strings of the requests, and whose answers are good, obeys the
laws. -/
theorem lawful_of_good (hstrings : i.strings = distinct requests)
    (hgoods : List.Forall₂ (Good i) requests answers) : Lawful requests answers i where
  size := by rw [hstrings]
  bytes := by rw [Interner.bytes, hstrings]
  listed := by rw [entries, map_snd_entriesFrom, hstrings]
  contiguous := by
    intro k r s hentry
    obtain ⟨hs, rfl⟩ := getElem?_entriesFrom hentry
    -- The strings fit together, so that neither offsets nor lengths wrap around.
    have hle := Nat.lt_of_le_of_lt (stringBytes_take_add_le hs) i.fits
    rw [← hstrings, Nat.zero_add, Utf8.length_encode]
    exact ⟨toNat_ofNat_of_lt (by omega), toNat_ofNat_of_lt (by omega)⟩
  entry := by
    intro r s hmem
    exact locate_of_mem_entriesFrom i.nodup hmem
  answered := hgoods.length_eq.symm
  returned := by
    intro k s hrequest
    obtain ⟨r, hanswer, -⟩ := exists_ref_of_getElem? hgoods hrequest
    exact ⟨r, hanswer⟩
  kept := by
    intro k request s r hrequest hs hanswer
    have hget := (good_of_getElem? hgoods hrequest hanswer).kept s r hs rfl
    exact ⟨hget, resolve?_of_get? hget⟩
  unknown := by
    intro s
    rw [get?_eq_none_iff, hstrings, mem_distinct]
  injective := by
    intro k k' s t hs ht
    obtain ⟨r, hanswer, hget⟩ := exists_ref_of_getElem? hgoods hs
    obtain ⟨r', hanswer', hget'⟩ := exists_ref_of_getElem? hgoods ht
    rw [hanswer, hanswer']
    constructor
    · rintro ⟨⟩
      exact Option.some.inj ((resolve?_of_get? hget).symm.trans (resolve?_of_get? hget'))
    · rintro rfl
      rw [hget] at hget'
      cases hget'
      rfl
  idle := by
    intro request hrequest
    cases request with
    | intern s =>
      have hmem : s ∈ i.strings := hstrings ▸ mem_distinct.mpr (hrequest s rfl)
      obtain ⟨r, hget⟩ := Option.ne_none_iff_exists'.mp (fun h => get?_eq_none_iff.mp h hmem)
      exact ⟨.ref (some r), by rw [serve, intern_of_get? hget]; rfl⟩
    | get s => exact ⟨_, rfl⟩
    | resolve r => exact ⟨_, rfl⟩

end Goods

/-- **The laws of an interner, over all runs.** Requests to an empty interner succeed if the strings
that are interned have room together. The interner and its answers then obey the laws, and a pool
that grows by the same requests gives the same answers and ends with the same bytes and
references. -/
theorem lawful_serveAll (requests : List Request)
    (hfits : stringBytes (distinct requests) < wordLimit) :
    ∃ answers i, serveAll serve {} requests = .ok (answers, i) ∧
      serveAll Pool.serve {} requests = .ok (answers, i.pool) ∧ Lawful requests answers i := by
  have hempty : ({} : Interner).strings = distinct [] := rfl
  obtain ⟨answers, i, hrun, hstrings, -, hgoods⟩ := exists_serveAll hempty requests hfits
  have hpool := serveAll_map pool_serve {} requests
  rw [hrun] at hpool
  exact ⟨answers, i, hrun, hpool, lawful_of_good hstrings hgoods⟩

/-- The empty string shares its place with the string behind it. Both keep their references, and the
second was looked up before it was interned. -/
theorem lawful_serveAll_empty_string :
    stringBytes (distinct [.intern "é", .intern "", .get "b", .intern "b", .intern ""]) <
        wordLimit ∧
      ∃ answers i,
        serveAll serve {} [.intern "é", .intern "", .get "b", .intern "b", .intern ""] =
          .ok (answers, i) ∧
        answers = [.ref (some ⟨0, 2⟩), .ref (some ⟨2, 0⟩), .ref none, .ref (some ⟨2, 1⟩),
          .ref (some ⟨2, 0⟩)] ∧
        i.bytes = [0xc3, 0xa9, 0x62] ∧ i.get? "" = some ⟨2, 0⟩ ∧ i.resolve? ⟨2, 1⟩ = some "b" := by
  have hfits : stringBytes (distinct [.intern "é", .intern "", .get "b", .intern "b", .intern ""]) <
      wordLimit := by decide +kernel
  obtain ⟨answers, i, hrun, -, laws⟩ := lawful_serveAll _ hfits
  have hanswers : (serveAll serve {} [.intern "é", .intern "", .get "b", .intern "b",
      .intern ""]).map Prod.fst = .ok [.ref (some ⟨0, 2⟩), .ref (some ⟨2, 0⟩), .ref none,
        .ref (some ⟨2, 1⟩), .ref (some ⟨2, 0⟩)] := by decide +kernel
  rw [hrun] at hanswers
  cases hanswers
  have hbytes := laws.bytes
  have hempty := laws.kept 1 _ "" ⟨2, 0⟩ rfl rfl rfl
  have hlast := laws.kept 3 _ "b" ⟨2, 1⟩ rfl rfl rfl
  exact ⟨hfits, _, i, hrun, rfl, hbytes.trans (by decide +kernel), hempty.1, hlast.2⟩

end Interner

end Stencil.Wire
