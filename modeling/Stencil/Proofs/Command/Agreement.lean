import Stencil.Command.Run
import Stencil.Proofs.Diagnostic.Filtering
import Stencil.Proofs.Emit.Settings

/-!
# Checking and listing agree

Two commands judge a template. One looks at the diagnostics behind a filter, the other at all of
them, and then reads the image back that it has just compiled. They come to the same verdict:
filtering hides no error, and an image that was compiled is always read back. Both fail alike if the
selector picks nothing or the template cannot be compiled.

Files are read by a function here, so that two commands with the same input read the same.

## Main definitions

* `HasConfig`, `HasText`, `configured`: the configuration and the text of an input
* `Chosen`: the nodes that a selector chooses
* `Refused`: why a text has no compiled template
* `Compiles`: an input leads to a compiled template
* `shelf`, `verdicts`: a few files, and the exit statuses of commands on them

## Main results

* `template_eq_ok_iff`, `template_of_refused`: when a source has a compiled template
* `status_listingOf_iff`: an image is listed exactly if it can be read
* `compiles_iff`: what it takes to have a compiled template
* `Compiles.reclosed`: the diagnostics are the same however void elements end
* `status_dump_iff`, `status_check_iff`: when the commands succeed
* `judging_of_refused`: a command fails if its template is refused
* `check_agrees_dump`: **checking and listing agree**
-/

namespace Stencil.Command

open Stencil.Text Stencil.Wire

/-! ## Compiled templates -/

section Templates

/-- The nodes that a selector chooses of a forest: all of them if there is no selector, or those in
the element that it picks. -/
def Chosen (nodes : List Markup.Node) (selector : Option String) (chosen : List Markup.Node) :
    Prop :=
  match selector with
  | none => chosen = nodes
  | some s => ∃ element, Markup.select nodes s = some element ∧ chosen = element.children

/-- Why a text has no compiled template: its selector picks nothing, or what it chooses cannot be
compiled. -/
inductive Refused (c : Config) (selector : Option String) (text : String) : Failure → Prop
  | missed {s : String} (hselector : selector = some s)
      (h : Markup.select (Markup.parse text).nodes s = none) : Refused c selector text (.selector s)
  | uncompiled {nodes : List Markup.Node} {err : CompileError}
      (hchosen : Chosen (Markup.parse text).nodes selector nodes)
      (h : Stencil.compile c nodes = .error err) : Refused c selector text (.compile err)

variable {c : Config} {selector : Option String} {source : String} {compiled : Compiled}

/-- A selector chooses nodes, or it picks nothing. -/
theorem chosen_or_missed (nodes : List Markup.Node) (selector : Option String) :
    (∃ chosen, Chosen nodes selector chosen) ∨
      ∃ s, selector = some s ∧ Markup.select nodes s = none := by
  cases selector with
  | none => exact .inl ⟨nodes, rfl⟩
  | some s =>
    cases h : Markup.select nodes s with
    | none => exact .inr ⟨s, rfl, h⟩
    | some element => exact .inl ⟨element.children, element, h, rfl⟩

/-- The template of a source is that of the nodes that are chosen, with the reports of parsing. -/
theorem template_of_chosen (c : Config) {nodes : List Markup.Node}
    (h : Chosen (Markup.parse source).nodes selector nodes) :
    template c selector source = ((Stencil.compile c nodes).map fun compiled =>
      { compiled with diagnostics := (Markup.parse source).diagnostics ++ compiled.diagnostics }
        ).mapError .compile := by
  cases selector with
  | none =>
    cases h
    dsimp only [template]
    cases Stencil.compile c (Markup.parse source).nodes <;> rfl
  | some s =>
    obtain ⟨element, hselect, rfl⟩ := h
    dsimp only [template]
    rw [hselect]
    dsimp only
    cases Stencil.compile c element.children <;> rfl

theorem template_of_missed (c : Config) {s : String}
    (h : Markup.select (Markup.parse source).nodes s = none) :
    template c (some s) source = .error (.selector s) := by
  dsimp only [template]
  rw [h]

/-- **When a source has a compiled template.** -/
theorem template_eq_ok_iff :
    template c selector source = .ok compiled ↔
      ∃ nodes inner, Chosen (Markup.parse source).nodes selector nodes ∧
        Stencil.compile c nodes = .ok inner ∧ compiled =
          { inner with diagnostics := (Markup.parse source).diagnostics ++ inner.diagnostics } := by
  constructor
  · intro h
    rcases chosen_or_missed (Markup.parse source).nodes selector with
      ⟨nodes, hchosen⟩ | ⟨s, rfl, hselect⟩
    · rw [template_of_chosen c hchosen] at h
      cases hcompile : Stencil.compile c nodes with
      | error err =>
        rw [hcompile] at h
        cases h
      | ok inner =>
        rw [hcompile] at h
        cases h
        exact ⟨nodes, inner, hchosen, hcompile, rfl⟩
    · rw [template_of_missed c hselect] at h
      cases h
  · rintro ⟨nodes, inner, hchosen, hcompile, rfl⟩
    rw [template_of_chosen c hchosen, hcompile]
    rfl

theorem template_of_refused {failure : Failure} (h : Refused c selector source failure) :
    template c selector source = .error failure := by
  cases h with
  | missed hselector h =>
    rw [hselector]
    exact template_of_missed c h
  | uncompiled hchosen h =>
    rw [template_of_chosen c hchosen, h]
    rfl

/-- An image is listed exactly if it can be read. -/
theorem status_listingOf_iff (colored : Bool) (bytes : List UInt8) :
    (listingOf colored bytes).status = 0 ↔ ∃ ops, Image.read bytes = .ok ops := by
  rw [listingOf, Image.read]
  cases Image.load bytes with
  | error err => simp [Failure.outcome, Except.bind]
  | ok image =>
    dsimp only [Except.bind]
    rw [Listing.listing]
    cases image.decode <;> simp [Failure.outcome, Except.map]

/-- A compiled template is listed exactly if no error is reported and its image can be read. -/
theorem status_dumpOf_iff (shown : Source) (colored : Bool) (compiled : Compiled) :
    (dumpOf shown colored compiled).status = 0 ↔
      Diagnostic.hasErrors compiled.diagnostics = false ∧
        ∃ ops, Image.read compiled.bytes = .ok ops := by
  rw [dumpOf]
  cases Diagnostic.hasErrors compiled.diagnostics with
  | true => simp
  | false => simp [status_listingOf_iff]

/-- A compiled template passes a check exactly if no error is left by the filter, and a strict one
exactly if nothing is. -/
theorem status_checkOf_iff (shown : Source) (strict compact colored : Bool) (compiled : Compiled) :
    (checkOf shown strict compact colored compiled).status = 0 ↔
      if strict then compiled.diagnostics = []
      else Diagnostic.errorCount (Diagnostic.filtered compiled.diagnostics) = 0 := by
  have hblocking : (if strict then (Diagnostic.filtered compiled.diagnostics).length
        else Diagnostic.errorCount (Diagnostic.filtered compiled.diagnostics)) = 0 ↔
      if strict then compiled.diagnostics = []
      else Diagnostic.errorCount (Diagnostic.filtered compiled.diagnostics) = 0 := by
    cases strict with
    | true => exact List.length_eq_zero_iff.trans Diagnostic.filtered_eq_nil_iff
    | false => rfl
  rw [← hblocking]
  dsimp only [checkOf]
  generalize (if strict then _ else _ : Nat) = blocking
  by_cases hzero : blocking = 0
  · rw [if_pos hzero]
    exact iff_of_true rfl hzero
  · rw [if_neg hzero]
    exact iff_of_false Nat.one_ne_zero hzero

end Templates

/-! ## Reading -/

section Reading

variable {α β : Type}

/-- An action on files that are read by a function has a value, or it stops. -/
theorem eq_pure_or_throw (action : ExceptT Failure Id α) :
    (∃ a, action = pure a) ∨ ∃ failure, action = throw failure := by
  cases h : Id.run action.run with
  | ok a => exact .inl ⟨a, h⟩
  | error failure => exact .inr ⟨failure, h⟩

theorem run_bind_eq_ok {action : ExceptT Failure Id α} {next : α → ExceptT Failure Id β} {b : β} :
    Id.run (action >>= next).run = .ok b ↔
      ∃ a, Id.run action.run = .ok a ∧ Id.run (next a).run = .ok b := by
  rcases eq_pure_or_throw action with ⟨a, rfl⟩ | ⟨failure, rfl⟩
  · constructor
    · intro h
      exact ⟨a, rfl, h⟩
    · rintro ⟨a', ha, h⟩
      cases ha
      exact h
  · constructor
    · intro h
      cases h
    · rintro ⟨a, ha, -⟩
      cases ha

theorem bind_of_run {action : ExceptT Failure Id α} {a : α} (h : Id.run action.run = .ok a)
    (next : α → ExceptT Failure Id β) : action >>= next = next a := by
  rcases eq_pure_or_throw action with ⟨a', rfl⟩ | ⟨failure, rfl⟩
  · cases h
    rfl
  · cases h

theorem run_liftM_bind {m : Type → Type} [Monad m] [LawfulMonad m] (a : m α)
    (next : α → ExceptT Failure m β) : (liftM a >>= next).run = a >>= fun x => (next x).run :=
  ExceptT.run_bind_lift a next

/-- A configuration as it is used, in which all elements may be made to end alike. -/
def configured (plainClose : Bool) (c : Config) : Config :=
  if plainClose then { c with closeMode := .plainClose } else c

/-- The configuration at a path, the default one if there is none. -/
def HasConfig (f : Files Id) (path : Option String) (c : Config) : Prop :=
  match path with
  | none => c = {}
  | some path =>
    ∃ bytes text, Id.run (f.read path) = .ok bytes ∧ Utf8.decode? bytes = some text ∧
      Config.ofText? text = some c

/-- The text of an input. -/
def HasText (f : Files Id) (path text : String) : Prop :=
  ∃ bytes, Id.run (if path = "-" then f.readInput else f.read path) = .ok bytes ∧
    Utf8.decode? bytes = some text

variable {f : Files Id}

/-- The configuration of a command. -/
theorem readConfig_eq_ok_iff {path : Option String} {plainClose : Bool} {c : Config} :
    Id.run (readConfig f path plainClose).run = .ok c ↔
      ∃ given, HasConfig f path given ∧ configured plainClose given = c := by
  cases path with
  | none =>
    constructor
    · rintro ⟨⟩
      exact ⟨{}, rfl, rfl⟩
    · rintro ⟨_, rfl, rfl⟩
      rfl
  | some path =>
    simp only [readConfig, run_liftM_bind, Id.run_bind, HasConfig]
    cases Id.run (f.read path) with
    | error fault => simp
    | ok bytes =>
      cases hdecode : Utf8.decode? bytes with
      | none => simp [hdecode]
      | some text => cases hconfig : Config.ofText? text <;> simp [hdecode, hconfig, configured]

theorem readBytes_eq_ok_iff {path : String} {bytes : List UInt8} :
    Id.run (readBytes f path).run = .ok bytes ↔
      Id.run (if path = "-" then f.readInput else f.read path) = .ok bytes := by
  unfold readBytes
  split
  · simp only [run_liftM_bind, Id.run_bind]
    cases Id.run f.readInput <;> simp
  · simp only [run_liftM_bind, Id.run_bind]
    cases Id.run (f.read path) <;> simp

/-- The source of a command. -/
theorem exists_readSource_iff {path text : String} :
    (∃ name, Id.run (readSource f path).run = .ok ⟨name, text⟩) ↔ HasText f path text := by
  simp only [readSource, run_bind_eq_ok, readBytes_eq_ok_iff, HasText]
  constructor
  · rintro ⟨name, bytes, hread, h⟩
    refine ⟨bytes, hread, ?_⟩
    cases hdecode : Utf8.decode? bytes with
    | none =>
      rw [hdecode] at h
      cases h
    | some text' =>
      rw [hdecode] at h
      cases h
      rfl
  · rintro ⟨bytes, hread, hdecode⟩
    refine ⟨if path = "-" then "<stdin>" else path, bytes, hread, ?_⟩
    rw [hdecode]
    rfl

end Reading

/-! ## Verdicts -/

section Verdicts

/-- An input leads to a compiled template: its configuration and its text can be read, its selector
chooses nodes, and these are compiled. The reports of parsing stand in front. -/
def Compiles (f : Files Id) (input : Input) (plainClose : Bool) (compiled : Compiled) : Prop :=
  ∃ c text nodes inner, HasConfig f input.config c ∧ HasText f input.path text ∧
    Chosen (Markup.parse text).nodes input.selector nodes ∧
    Stencil.compile (configured plainClose c) nodes = .ok inner ∧ compiled =
      { inner with diagnostics := (Markup.parse text).diagnostics ++ inner.diagnostics }

variable {f : Files Id} {input : Input} {plainClose : Bool} {compiled : Compiled}

/-- **What it takes to have a compiled template.** -/
theorem compiles_iff :
    Compiles f input plainClose compiled ↔
      ∃ source, Id.run (readTemplate f input plainClose).run = .ok (source, compiled) := by
  unfold readTemplate
  constructor
  · rintro ⟨c, text, nodes, inner, hconfig, htext, hcompiled⟩
    obtain ⟨name, hsource⟩ := exists_readSource_iff.mpr htext
    have htemplate := template_eq_ok_iff.mpr ⟨nodes, inner, hcompiled⟩
    refine ⟨⟨name, text⟩, run_bind_eq_ok.mpr ⟨_, readConfig_eq_ok_iff.mpr ⟨c, hconfig, rfl⟩, ?_⟩⟩
    refine run_bind_eq_ok.mpr ⟨_, hsource, ?_⟩
    exact run_bind_eq_ok.mpr ⟨compiled, htemplate, rfl⟩
  · rintro ⟨source, h⟩
    obtain ⟨_, hread, h⟩ := run_bind_eq_ok.mp h
    obtain ⟨c, hconfig, rfl⟩ := readConfig_eq_ok_iff.mp hread
    obtain ⟨source', hsource, h⟩ := run_bind_eq_ok.mp h
    obtain ⟨compiled', htemplate, h⟩ := run_bind_eq_ok.mp h
    cases h
    obtain ⟨nodes, inner, hcompiled⟩ := template_eq_ok_iff.mp htemplate
    exact ⟨c, source.text, nodes, inner, hconfig, exists_readSource_iff.mp ⟨_, hsource⟩, hcompiled⟩

/-- What is compiled can be read back. -/
theorem Compiles.exists_read (h : Compiles f input plainClose compiled) :
    ∃ ops, Image.read compiled.bytes = .ok ops := by
  obtain ⟨c, text, nodes, inner, -, -, -, hcompile, rfl⟩ := h
  dsimp only
  exact ⟨_, read_of_compile hcompile⟩

theorem map_diagnostics_configured (plainClose : Bool) (c : Config) (nodes : List Markup.Node) :
    (Stencil.compile (configured plainClose c) nodes).map (·.diagnostics) =
      (Stencil.compile c nodes).map (·.diagnostics) := by
  cases plainClose with
  | false => rfl
  | true => exact map_diagnostics_compile c .plainClose nodes

theorem map_eq_ok_iff {ε α β : Type} {x : Except ε α} {g : α → β} {b : β} :
    x.map g = .ok b ↔ ∃ a, x = .ok a ∧ g a = b := by
  cases x with
  | error err => simp [Except.map]
  | ok a => simp [Except.map]

/-- **The diagnostics are the same however void elements end.** -/
theorem Compiles.reclosed (h : Compiles f input plainClose compiled) (plainClose' : Bool) :
    ∃ compiled', Compiles f input plainClose' compiled' ∧
      compiled'.diagnostics = compiled.diagnostics := by
  obtain ⟨c, text, nodes, inner, hconfig, htext, hchosen, hcompile, rfl⟩ := h
  have hmap : (Stencil.compile (configured plainClose' c) nodes).map (·.diagnostics) =
      .ok inner.diagnostics := by
    rw [map_diagnostics_configured, ← map_diagnostics_configured plainClose, hcompile]
    rfl
  obtain ⟨inner', hcompile', hdiagnostics⟩ := map_eq_ok_iff.mp hmap
  exact ⟨_, ⟨c, text, nodes, inner', hconfig, htext, hchosen, hcompile', rfl⟩,
    congrArg ((Markup.parse text).diagnostics ++ ·) hdiagnostics⟩

/-- Neither does it matter for whether a template is refused. -/
theorem Refused.configured {c : Config} {selector : Option String} {text : String}
    {failure : Failure} (h : Refused c selector text failure) (plainClose : Bool) :
    Refused (configured plainClose c) selector text failure := by
  cases h with
  | missed hselector h => exact .missed hselector h
  | @uncompiled nodes err hchosen h =>
    refine .uncompiled hchosen ?_
    have hmap := map_diagnostics_configured plainClose c nodes
    rw [h] at hmap
    cases hcompile : Stencil.compile (Command.configured plainClose c) nodes with
    | error err' =>
      rw [hcompile] at hmap
      cases hmap
      rfl
    | ok inner =>
      rw [hcompile] at hmap
      cases hmap

variable (judge : Source × Compiled → Outcome)

/-- A command whose verdict on a compiled template is known. -/
theorem status_judging_iff {passes : Compiled → Prop}
    (hjudge : ∀ source compiled, (judge (source, compiled)).status = 0 ↔ passes compiled) :
    (Id.run (outcomeOf do return judge (← readTemplate f input plainClose))).status = 0 ↔
      ∃ compiled, Compiles f input plainClose compiled ∧ passes compiled := by
  simp only [compiles_iff]
  generalize readTemplate f input plainClose = action
  rcases eq_pure_or_throw action with ⟨⟨source, compiled⟩, rfl⟩ | ⟨failure, rfl⟩
  · constructor
    · intro hstatus
      exact ⟨compiled, ⟨source, rfl⟩, (hjudge source compiled).mp hstatus⟩
    · rintro ⟨compiled', ⟨source', h⟩, hpasses⟩
      cases h
      exact (hjudge source compiled).mpr hpasses
  · constructor
    · intro hstatus
      cases hstatus
    · rintro ⟨compiled, ⟨source, h⟩, -⟩
      cases h

/-- **A command fails if its template is refused**, whatever its verdict on others. -/
theorem judging_of_refused {c : Config} {text : String} {failure : Failure}
    (hconfig : HasConfig f input.config c) (htext : HasText f input.path text)
    (h : Refused c input.selector text failure) :
    Id.run (outcomeOf do return judge (← readTemplate f input plainClose)) = failure.outcome := by
  have hread : Id.run (readConfig f input.config plainClose).run = .ok (configured plainClose c) :=
    readConfig_eq_ok_iff.mpr ⟨c, hconfig, rfl⟩
  obtain ⟨name, hsource⟩ := exists_readSource_iff.mpr htext
  have htemplate := template_of_refused (h.configured plainClose)
  have hthrow : readTemplate f input plainClose = throw failure := by
    unfold readTemplate
    rw [bind_of_run hread, bind_of_run hsource, htemplate]
    rfl
  rw [hthrow]
  rfl

/-- When listing a template succeeds. -/
theorem status_dump_iff (terminal : Channel → Bool) (plainClose : Bool) (color : ColorChoice) :
    (Id.run (run f terminal (.dump input plainClose false color))).status = 0 ↔
      ∃ compiled, Compiles f input plainClose compiled ∧
        Diagnostic.hasErrors compiled.diagnostics = false ∧
        ∃ ops, Image.read compiled.bytes = .ok ops :=
  status_judging_iff (fun p => dumpOf p.1 (color.enabled (terminal .stdout)) p.2)
    fun source compiled => status_dumpOf_iff source _ compiled

/-- When checking a template succeeds. -/
theorem status_check_iff (terminal : Channel → Bool) (strict compact : Bool)
    (color : ColorChoice) :
    (Id.run (run f terminal (.check input strict compact color))).status = 0 ↔
      ∃ compiled, Compiles f input false compiled ∧
        if strict then compiled.diagnostics = []
        else Diagnostic.errorCount (Diagnostic.filtered compiled.diagnostics) = 0 :=
  status_judging_iff (fun p => checkOf p.1 strict compact (color.enabled (terminal .stderr)) p.2)
    fun source compiled => status_checkOf_iff source strict compact _ compiled

end Verdicts

/-- **Checking and listing agree.** For the same files and the same input, checking succeeds exactly
if listing does, whatever is said about colours, the form of reports and the ends of void elements.
Checking decides on the diagnostics of the compiled template that the filter leaves, and listing on
all of them and on reading the image back. Strict checking succeeds exactly if the template is
compiled and there are no diagnostics at all, none of them filtered. If the selector picks nothing
or the template cannot be compiled, all of them fail alike. -/
theorem check_agrees_dump (f : Files Id) (terminal : Channel → Bool) (input : Input)
    (plainClose compact : Bool) (color color' : ColorChoice) :
    ((Id.run (run f terminal (.check input false compact color))).status = 0 ↔
      (Id.run (run f terminal (.dump input plainClose false color'))).status = 0) ∧
    ((Id.run (run f terminal (.check input false compact color))).status = 0 ↔
      ∃ compiled, Compiles f input false compiled ∧
        Diagnostic.errorCount (Diagnostic.filtered compiled.diagnostics) = 0) ∧
    ((Id.run (run f terminal (.dump input plainClose false color'))).status = 0 ↔
      ∃ compiled, Compiles f input plainClose compiled ∧
        Diagnostic.hasErrors compiled.diagnostics = false ∧
        ∃ ops, Image.read compiled.bytes = .ok ops) ∧
    ((Id.run (run f terminal (.check input true compact color))).status = 0 ↔
      ∃ compiled, Compiles f input false compiled ∧ compiled.diagnostics = []) ∧
    ∀ c text failure, HasConfig f input.config c → HasText f input.path text →
      Refused c input.selector text failure →
      ∀ invocation ∈ [.check input false compact color, .check input true compact color,
          .dump input plainClose false color'],
        Id.run (run f terminal invocation) = failure.outcome ∧ failure.outcome.status = 1 := by
  have hcheck := @status_check_iff f input terminal false compact color
  have hdump := @status_dump_iff f input terminal plainClose color'
  refine ⟨?_, hcheck, hdump, status_check_iff terminal true compact color, ?_⟩
  · rw [hcheck, hdump]
    simp only [Bool.false_eq_true, if_false, Diagnostic.errorCount_eq_zero_iff,
      Diagnostic.hasErrors_filtered]
    constructor
    · rintro ⟨compiled, hcompiles, herrors⟩
      obtain ⟨compiled', hcompiles', hdiagnostics⟩ := hcompiles.reclosed plainClose
      exact ⟨compiled', hcompiles', by rwa [hdiagnostics], hcompiles'.exists_read⟩
    · rintro ⟨compiled, hcompiles, herrors, -⟩
      obtain ⟨compiled', hcompiles', hdiagnostics⟩ := hcompiles.reclosed false
      exact ⟨compiled', hcompiles', by rwa [hdiagnostics]⟩
  · intro c text failure hconfig htext hrefused invocation hinvocation
    refine ⟨?_, rfl⟩
    simp only [List.mem_cons, List.not_mem_nil, or_false] at hinvocation
    rcases hinvocation with rfl | rfl | rfl
    · exact judging_of_refused _ hconfig htext hrefused
    · exact judging_of_refused _ hconfig htext hrefused
    · exact judging_of_refused _ hconfig htext hrefused

/-- Three templates and a configuration that leaves no room for tags. -/
def shelf : Files Id where
  read path :=
    let texts := [("whole.html", "<p></p>"), ("open.html", "<p>"), ("cut.html", "<p"),
      ("narrow.json", "\x7b\"max_payload_entries\":0\x7d")]
    match texts.lookup path with
    | some text => .ok (Utf8.encode text)
    | none => .error .notFound
  readInput := .ok []
  write _ _ := .error .denied

/-- Checking, strict checking and listing an input. -/
def judgements (input : Input) : List Invocation :=
  [.check input false false .auto, .check input true false .auto, .dump input true false .auto]

/-- The exit statuses of checking, strict checking and listing an input. -/
def verdicts (f : Files Id) (input : Input) : List Nat :=
  (judgements input).map fun invocation => (Id.run (run f (fun _ => false) invocation)).status

/-- A template without diagnostics, one with a warning and one with an error, a selector that picks
nothing, and a table without room. -/
theorem check_agrees_dump_shelf :
    verdicts shelf ⟨"whole.html", none, none⟩ = [0, 0, 0] ∧
    verdicts shelf ⟨"open.html", none, none⟩ = [0, 1, 0] ∧
    (∃ compiled, Compiles shelf ⟨"open.html", none, none⟩ true compiled ∧
      Diagnostic.hasErrors compiled.diagnostics = false ∧
      ∃ ops, Image.read compiled.bytes = .ok ops) ∧
    verdicts shelf ⟨"cut.html", none, none⟩ = [1, 1, 1] ∧
    verdicts shelf ⟨"open.html", none, some "narrow.json"⟩ = [1, 1, 1] ∧
    verdicts shelf ⟨"open.html", some "#x", none⟩ = [1, 1, 1] ∧
    ∀ invocation ∈ judgements ⟨"open.html", some "#x", none⟩,
      Id.run (run shelf (fun _ => false) invocation) = (Failure.selector "#x").outcome ∧
        (Failure.selector "#x").outcome.status = 1 := by
  have hagree := check_agrees_dump shelf fun _ => false
  refine ⟨by decide +kernel, by decide +kernel, ?_, by decide +kernel, by decide +kernel,
    by decide +kernel, ?_⟩
  · exact (hagree ⟨"open.html", none, none⟩ true false .auto .auto).2.2.1.mp (by decide +kernel)
  · have hmissed : Markup.select (Markup.parse "<p>").nodes "#x" = none :=
      Option.isNone_iff_eq_none.mp (by decide +kernel)
    exact (hagree ⟨"open.html", some "#x", none⟩ true false .auto .auto).2.2.2.2 {} "<p>" _ rfl
      ⟨Utf8.encode "<p>", rfl, Utf8.decode?_encode _⟩ (.missed rfl hmissed)

end Stencil.Command
