import Onepass.Command.Run
import Onepass.Command.Sandbox
import Onepass.Proofs.Files

/-!
# Onepass.Proofs.Outcome

What a run of the command line leaves behind. The host is the sandbox in a `Setting`: files and
streams may be refused, a write may break off, and an event that is shown becomes a line on standard
error, whatever its text. What libraries do is left open too, but for one thing: a report names the
step that failed and its cause (`Libraries.Reports`).

* `run_eq`   -- a run ends as its source and the fate of the listing tell.
* `run_ends` -- a run that fails ends with a report on standard error, and until a listing is
  written nothing else has changed; a run that does not fail has brought the listing to one place.
-/

namespace Onepass
namespace Command

/-- What the world around a run does. `-` stands for standard input. -/
structure Setting where
  /-- What is refused to be read, whatever the path leads to. -/
  reading : String → Option Refusal
  /-- What is refused to be opened for writing. -/
  writing : String → Option Refusal
  /-- Where writing breaks off: what the file holds then. -/
  breaking : String → Option (Content × Refusal)
  /-- Standard output takes no more: what it has taken of the text. -/
  printing : Option (String × Refusal)
  /-- The line of an event, behind what was said before. -/
  line (said : String) (event : Event) : String

namespace Setting

/-- Nothing is refused. -/
def free : Setting := ⟨fun _ => none, fun _ => none, fun _ => none, none, fun _ => Event.text⟩

variable (setting : Setting)

/-- The place of the file that is opened for writing. -/
def opened (disk : Disk) (path : String) : Except Refusal (List String) :=
  match setting.writing path with
  | some r => .error r
  | none => disk.opened path

/-- What comes of a text that is written behind a path. -/
def write (w : World) (path text : String) : Except Refusal Unit × World :=
  match setting.opened w.disk path with
  | .error r => (.error r, w)
  | .ok place =>
    match setting.breaking path with
    | none => (.ok (), { w with disk := w.disk.put place text })
    | some (left, r) => (.error r, { w with disk := w.disk.put place left })

/-- What comes of a text that is printed. -/
def print (w : World) (text : String) : Except Refusal Unit × World :=
  match setting.printing with
  | none => (.ok (), { w with printed := w.printed ++ text })
  | some (front, r) => (.error r, { w with printed := w.printed ++ front })

end Setting

/-- The sandbox in a setting. -/
abbrev Guarded := ReaderT Setting Sandbox

/-- Goes on where nothing is refused. -/
def guarded {α : Type} (refusal : Option Refusal) (step : Sandbox (Except Refusal α)) :
    Sandbox (Except Refusal α) :=
  match refusal with
  | some r => return .error r
  | none => step

instance : Host Guarded where
  readInput := fun setting => guarded (setting.reading "-") Host.readInput
  readFile path := fun setting => guarded (setting.reading path) (Host.readFile path)
  writeFile path text := fun setting w => setting.write w path text
  print text := fun setting w => setting.print w text
  complain text := fun _ => Host.complain text
  log event := fun setting => modify fun w =>
    { w with complaints := w.complaints ++ setting.line w.complaints event }

namespace Options

/-- The lines of the events that are shown, behind what was said before. -/
def lines (o : Options) (setting : Setting) (said : String) : List Event → String
  | [] => ""
  | event :: rest =>
    if event.shown o.verbose then
      setting.line said event ++ o.lines setting (said ++ setting.line said event) rest
    else o.lines setting said rest

end Options

namespace World

variable (w : World) (o : Options) (setting : Setting)

/-- The world with the lines of events on standard error. -/
def noting (events : List Event) : World :=
  { w with complaints := w.complaints ++ o.lines setting w.complaints events }

def saying (text : String) : World := { w with complaints := w.complaints ++ text }

end World

/-- The end of a run with a step that failed. -/
def Libraries.failed (lib : Libraries) (step : String) (cause : Cause) (w : World) : Nat × World :=
  (1, w.saying (lib.report step cause))

namespace Options

variable (o : Options) (lib : Libraries) (setting : Setting) (w : World)

/-- What the run reads. -/
def source : Except Refusal String :=
  match setting.reading o.input with
  | some r => .error r
  | none => if o.input = "-" then w.input.toText else w.disk.read o.input

/-- What happens from the beginning until a text is compiled or turns out to be no program. -/
def events (text : String) : List Event :=
  .compiling o.input :: Compiler.new.log (lib.text text)

/-- The end of a run that has got the text of a listing, behind some events. -/
def settled (es : List Event) (text : String) : Nat × World :=
  match o.destination with
  | none =>
    match setting.print w text with
    | (.error r, w) => lib.failed "writing to stdout" (.refused r) (w.noting o setting es)
    | (.ok (), w) => (0, w.noting o setting es)
  | some path =>
    match setting.write w path text with
    | (.error r, w) => lib.failed ("writing " ++ path) (.refused r) (w.noting o setting es)
    | (.ok (), w) => (0, w.noting o setting (es ++ [.wrote path]))

/-- The end of a run. -/
def outcome : Nat × World :=
  match o.source setting w with
  | .error r =>
    lib.failed ("reading " ++ o.input) (.refused r) (w.noting o setting [.compiling o.input])
  | .ok text =>
    match compile (lib.text text) with
    | .error e =>
      lib.failed ("compiling " ++ o.input) (.rejected e) (w.noting o setting (o.events lib text))
    | .ok listing => o.settled lib setting w (o.events lib text) listing.text

end Options

variable {o : Options} {lib : Libraries} {setting : Setting} {w : World}

theorem lines_append (said : String) (es more : List Event) :
    o.lines setting said (es ++ more) =
      o.lines setting said es ++ o.lines setting (said ++ o.lines setting said es) more := by
  induction es generalizing said with
  | nil => simp [Options.lines]
  | cons e es ih =>
    rw [List.cons_append, Options.lines, Options.lines]
    split
    · rw [ih, String.append_assoc, String.append_assoc]
    · exact ih said

theorem lines_of_quiet (h : o.verbose = 0) (said : String) (es : List Event) :
    o.lines setting said es = "" := by
  induction es with
  | nil => rfl
  | cons e es ih =>
    rw [Options.lines, h, Event.shown_zero, if_neg Bool.false_ne_true]
    exact ih

theorem noting_append (es more : List Event) :
    w.noting o setting (es ++ more) = (w.noting o setting es).noting o setting more := by
  simp only [World.noting, lines_append, String.append_assoc]

theorem noting_of_quiet (h : o.verbose = 0) (es : List Event) : w.noting o setting es = w := by
  simp [World.noting, lines_of_quiet h]

/-- A step, and then the rest of the run. -/
theorem run_bind {α β : Type} {step : Guarded α} {a : α} {w' : World}
    (h : (step.run setting).run w = (a, w')) (next : α → Guarded β) :
    ((step >>= next).run setting).run w = ((next a).run setting).run w' := by
  rw [ReaderT.run_bind, StateT.run_bind, h]
  rfl

theorem run_note (o : Options) (es : List Event) :
    ((note o es : Guarded Unit).run setting).run w = ((), w.noting o setting es) := by
  induction es generalizing w with
  | nil =>
    show ((), w) = _
    simp [World.noting, Options.lines]
  | cons e es ih =>
    rw [note]
    by_cases he : e.shown o.verbose = true
    · have hlog : ((Host.log e : Guarded Unit).run setting).run w =
          ((), w.saying (setting.line w.complaints e)) := rfl
      rw [if_pos he, run_bind hlog, ih]
      simp only [World.noting, World.saying, Options.lines, he, if_true, String.append_assoc]
    · rw [if_neg he, ih]
      simp only [World.noting, Options.lines, if_neg he]

theorem run_guarded {α : Type} (refusal : Option Refusal) (step : Sandbox (Except Refusal α)) :
    (guarded refusal step).run w = match refusal with
      | some r => (.error r, w)
      | none => step.run w := by
  cases refusal <;> rfl

theorem run_fetch (o : Options) :
    ((fetch o : Guarded (Except Refusal String)).run setting).run w = (o.source setting w, w) := by
  rw [fetch]
  by_cases hin : o.input = "-"
  · have hfrom : o.fromInput = true := by simp [Options.fromInput, hin]
    rw [if_pos hfrom, Options.source, hin, if_pos rfl]
    refine (run_guarded _ _).trans ?_
    cases setting.reading "-" <;> rfl
  · have hfrom : o.fromInput = false := by simp [Options.fromInput, hin]
    rw [hfrom, if_neg Bool.false_ne_true, Options.source, if_neg hin]
    refine (run_guarded _ _).trans ?_
    cases setting.reading o.input <;> rfl

theorem run_print (es : List Event) (text : String) :
    ((Host.print text : Guarded (Except Refusal Unit)).run setting).run (w.noting o setting es) =
      ((setting.print w text).1, (setting.print w text).2.noting o setting es) := by
  change setting.print _ text = _
  rw [Setting.print, Setting.print]
  cases setting.printing <;> rfl

theorem run_write (es : List Event) (path text : String) :
    ((Host.writeFile path text : Guarded (Except Refusal Unit)).run setting).run
        (w.noting o setting es) =
      ((setting.write w path text).1, (setting.write w path text).2.noting o setting es) := by
  have hdisk : (w.noting o setting es).disk = w.disk := rfl
  change setting.write _ path text = _
  rw [Setting.write, Setting.write, hdisk]
  cases setting.opened w.disk path with
  | error r => rfl
  | ok place => cases setting.breaking path <;> rfl

theorem run_deliver (es : List Event) (text : String) :
    ((deliver lib o text : Guarded Nat).run setting).run (w.noting o setting es) =
      o.settled lib setting w es text := by
  rw [deliver, Options.settled]
  cases o.destination with
  | none =>
    dsimp only
    rw [run_bind (run_print es text)]
    rcases setting.print w text with ⟨r | ⟨⟩, w'⟩ <;> rfl
  | some path =>
    dsimp only
    rw [run_bind (run_write es path text)]
    rcases setting.write w path text with ⟨r | ⟨⟩, w'⟩
    · rfl
    · dsimp only
      rw [run_bind (run_note o _), ← noting_append]
      rfl

theorem run_build :
    ((build lib o : Guarded Nat).run setting).run w = o.outcome lib setting w := by
  rw [build, run_bind (run_note o _), run_bind (run_fetch o), Options.outcome]
  have hsource : o.source setting (w.noting o setting [.compiling o.input]) = o.source setting w :=
    rfl
  rw [hsource]
  cases o.source setting w with
  | error r => rfl
  | ok text =>
    dsimp only [process]
    rw [run_bind (run_note o _), ← noting_append]
    cases compile (lib.text text) with
    | error e => rfl
    | ok listing => exact run_deliver (o.events lib text) listing.text

/-- Accepted arguments ask for a compilation, for nothing else. -/
theorem run_eq {args : List String} (h : lib.request args = .compile o) :
    ((runWith lib args : Guarded Nat).run setting).run w = o.outcome lib setting w := by
  rw [runWith, h]
  exact run_build

/-! ## Reports -/

/-- A report has the step in it that failed, and the message of the cause line by line. -/
structure Carries (report step message : String) : Prop where
  step : step.toList <:+: report.toList
  message : ∀ line, '\n' ∉ line → line <:+: message.toList → line <:+: report.toList

/-- Every report tells what it is a report of. -/
def Libraries.Reports (lib : Libraries) : Prop :=
  ∀ step cause, Carries (lib.report step cause) step cause.message

theorem flatMap_moved {line : List Char} (h : '\n' ∉ line) :
    line.flatMap (fun c => (moved c).toList) = line := by
  induction line with
  | nil => rfl
  | cons c line ih =>
    rw [List.mem_cons, not_or] at h
    rw [List.flatMap_cons, ih h.2, moved, if_neg (Ne.symm h.1), String.toList_singleton]
    rfl

/-- A line that is moved to the right is still there. -/
theorem line_indented {message : String} {line : List Char} (hline : '\n' ∉ line)
    (h : line <:+: message.toList) : line <:+: (indented message).toList := by
  have hindented : (indented message).toList =
      "    ".toList ++ message.toList.flatMap fun c => (moved c).toList := by
    simp [indented, List.flatMap_map]
  obtain ⟨front, rest, hmessage⟩ := h
  rw [hindented, ← hmessage, List.flatMap_append, List.flatMap_append, flatMap_moved hline]
  exact ⟨"    ".toList ++ front.flatMap fun c => (moved c).toList,
    rest.flatMap fun c => (moved c).toList, by simp only [List.append_assoc]⟩

theorem carries_failure (step : String) (cause : Cause) :
    Carries (failure step cause) step cause.message where
  step := by
    refine ⟨"Error: ".toList, ("\n\nCaused by:\n" ++ indented cause.message ++ "\n").toList, ?_⟩
    simp [failure]
  message line hline hmem := by
    have hindented := line_indented hline hmem
    refine hindented.trans ⟨("Error: " ++ step ++ "\n\nCaused by:\n").toList, ['\n'], ?_⟩
    simp [failure]

theorem reports_standard : Libraries.standard.Reports := carries_failure

/-! ## How a run ends -/

/-- Of all files, the one behind the path alone is another than before. -/
def Disk.Changes (d : Disk) (path : String) (content : Content) (d' : Disk) : Prop :=
  ∃ place, d.locate path = .ok (some place) ∧
    ∀ other, d'.file? other = if other = place then some content else d.file? other

namespace Options

/-- The world `w'` is `w` with the lines of the events that are shown, of which there are none if
no log was asked for. -/
structure Logs (o : Options) (setting : Setting) (es : List Event) (w w' : World) : Prop where
  world : w' = w.noting o setting es
  quiet : o.verbose = 0 → w' = w

/-- In the world `w'` standard error ends with the report of a step that failed, behind what was
there in `w` and the lines of events. Nothing else is another than in `w`. -/
structure Complains (o : Options) (lib : Libraries) (setting : Setting) (es : List Event)
    (step : String) (cause : Cause) (w w' : World) : Prop where
  world : ∃ w₁, o.Logs setting es w w₁ ∧ w' = w₁.saying (lib.report step cause)
  carries : Carries (lib.report step cause) step cause.message

/-- The path of the listing, where that goes to a file: the one asked for, or that of the source
with another extension. -/
def GoesTo (o : Options) (path : String) : Prop :=
  o.output = some path ∨
    o.output = none ∧ o.input ≠ "-" ∧ path = Path.withExtension "asm" o.input

/-- How a run with the options `o` ends that began in the world `w`: with an exit code, in another
world. -/
structure Ends (o : Options) (lib : Libraries) (setting : Setting) (w : World) (code : Nat)
    (w' : World) : Prop where
  unread : ∀ r, o.source setting w = .error r →
    code = 1 ∧ o.Complains lib setting [.compiling o.input]
      ("reading " ++ o.input) (.refused r) w w'
  uncompiled : ∀ text e, o.source setting w = .ok text → compile (lib.text text) = .error e →
    code = 1 ∧ o.Complains lib setting (o.events lib text)
      ("compiling " ++ o.input) (.rejected e) w w'
  printed : ∀ text listing, o.source setting w = .ok text →
    compile (lib.text text) = .ok listing → o.output = none → o.input = "-" →
    setting.printing = none →
    code = 0 ∧ o.Logs setting (o.events lib text)
      { w with printed := w.printed ++ listing.text } w'
  unprinted : ∀ text listing front r, o.source setting w = .ok text →
    compile (lib.text text) = .ok listing → o.output = none → o.input = "-" →
    setting.printing = some (front, r) →
    code = 1 ∧ o.Complains lib setting (o.events lib text) "writing to stdout" (.refused r)
      { w with printed := w.printed ++ front } w'
  written : ∀ text listing path place, o.source setting w = .ok text →
    compile (lib.text text) = .ok listing →
    o.GoesTo path → setting.opened w.disk path = .ok place → setting.breaking path = none →
    code = 0 ∧ ∃ disk, w.disk.Changes path (.text listing.text) disk ∧
      o.Logs setting (o.events lib text ++ [.wrote path]) { w with disk } w'
  /-- A file that is not opened is left as it was. -/
  unwritten : ∀ text listing path r, o.source setting w = .ok text →
    compile (lib.text text) = .ok listing →
    o.GoesTo path → setting.opened w.disk path = .error r →
    code = 1 ∧ o.Complains lib setting (o.events lib text) ("writing " ++ path) (.refused r) w w'
  /-- A file that is opened is lost where writing breaks off. -/
  broken : ∀ text listing path place left r, o.source setting w = .ok text →
    compile (lib.text text) = .ok listing →
    o.GoesTo path → setting.opened w.disk path = .ok place →
    setting.breaking path = some (left, r) →
    code = 1 ∧ ∃ disk, w.disk.Changes path left disk ∧
      o.Complains lib setting (o.events lib text) ("writing " ++ path) (.refused r)
        { w with disk } w'

theorem logs (es : List Event) (w : World) : o.Logs setting es w (w.noting o setting es) :=
  ⟨rfl, fun hquiet => noting_of_quiet hquiet es⟩

theorem complains (hreport : lib.Reports) (es : List Event) (step : String) (cause : Cause)
    (w : World) : o.Complains lib setting es step cause w
      ((w.noting o setting es).saying (lib.report step cause)) :=
  ⟨⟨_, logs es w, rfl⟩, hreport step cause⟩

theorem changes_put {d : Disk} {path : String} {place : List String} (content : Content)
    (h : setting.opened d path = .ok place) : d.Changes path content (d.put place content) := by
  refine ⟨place, Disk.locate_of_opened ?_, fun other => Disk.file?_put d place other content⟩
  rw [Setting.opened] at h
  split at h
  · cases h
  · exact h

theorem destination_eq_none (hout : o.output = none) (hin : o.input = "-") :
    o.destination = none := by
  simp [destination, hout, fromInput, hin]

theorem destination_eq_some {path : String} (h : o.GoesTo path) : o.destination = some path := by
  rcases h with hout | ⟨hout, hin, rfl⟩
  · simp [destination, hout]
  · simp [destination, hout, fromInput, hin]

theorem outcome_of_listing {text : String} {listing : Assembly.Listing}
    (htext : o.source setting w = .ok text) (hlisting : compile (lib.text text) = .ok listing) :
    o.outcome lib setting w = o.settled lib setting w (o.events lib text) listing.text := by
  simp only [outcome, htext, hlisting]

end Options

/-- A run that fails says so, naming the step and its input; it leaves everything else as it was,
unless it has begun to write. Any other run has brought the listing to one place. -/
theorem run_ends (lib : Libraries) (hreport : lib.Reports) {args : List String} {o : Options}
    (h : lib.request args = .compile o) (setting : Setting) (w : World) :
    o.Ends lib setting w (((runWith lib args : Guarded Nat).run setting).run w).1
      (((runWith lib args : Guarded Nat).run setting).run w).2 := by
  rw [run_eq h]
  constructor
  case unread =>
    intro r hr
    simp only [Options.outcome, hr]
    exact ⟨rfl, Options.complains hreport _ _ _ w⟩
  case uncompiled =>
    intro text e htext he
    simp only [Options.outcome, htext, he]
    exact ⟨rfl, Options.complains hreport _ _ _ w⟩
  case printed =>
    intro text listing htext hlisting hout hin hprinting
    rw [Options.outcome_of_listing htext hlisting, Options.settled,
      Options.destination_eq_none hout hin]
    simp only [Setting.print, hprinting]
    exact ⟨trivial, Options.logs _ _⟩
  case unprinted =>
    intro text listing front r htext hlisting hout hin hprinting
    rw [Options.outcome_of_listing htext hlisting, Options.settled,
      Options.destination_eq_none hout hin]
    simp only [Setting.print, hprinting]
    exact ⟨rfl, Options.complains hreport _ _ _ _⟩
  case written =>
    intro text listing path place htext hlisting hpath hopened hbreaking
    rw [Options.outcome_of_listing htext hlisting, Options.settled,
      Options.destination_eq_some hpath]
    simp only [Setting.write, hopened, hbreaking]
    exact ⟨trivial, _, Options.changes_put _ hopened, Options.logs _ _⟩
  case unwritten =>
    intro text listing path r htext hlisting hpath hr
    rw [Options.outcome_of_listing htext hlisting, Options.settled,
      Options.destination_eq_some hpath]
    simp only [Setting.write, hr]
    exact ⟨rfl, Options.complains hreport _ _ _ w⟩
  case broken =>
    intro text listing path place left r htext hlisting hpath hopened hbreaking
    rw [Options.outcome_of_listing htext hlisting, Options.settled,
      Options.destination_eq_some hpath]
    simp only [Setting.write, hopened, hbreaking]
    exact ⟨rfl, _, Options.changes_put _ hopened, Options.complains hreport _ _ _ _⟩

/-- A source that does not compile, and a listing of an earlier one that keeps its place. -/
theorem run_ends_brokenSource :
    let args := ["a.lua", "-o", "out.s"]
    let o : Options := ⟨"a.lua", some "out.s", 0⟩
    let disk : Disk := ⟨[(["a.lua"], .text "print(1\n"), (["out.s"], .text "old")]⟩
    let w : World := ⟨disk, .bytes [255], "", ""⟩
    let result := ((run args : Guarded Nat).run .free).run w
    Libraries.standard.Reports ∧ Libraries.standard.request args = .compile o ∧
      o.Ends .standard .free w result.1 result.2 ∧ result.1 = 1 ∧
      result.2 = { w with complaints :=
        "Error: compiling a.lua\n\nCaused by:\n" ++
          "    line 1: expected one of [CLOSE_PAR], got EOF\n" } := by
  intro args o disk w result
  have hargs : Libraries.standard.request args = .compile o := by decide
  have hends : o.Ends .standard .free w result.1 result.2 :=
    run_ends .standard reports_standard hargs .free w
  have hsource : o.source .free w = .ok "print(1\n" := by decide +kernel
  have hcompile : compile (Libraries.standard.text "print(1\n") =
      .error (.unexpected 1 [.mark .closeParen] (.mark .eof)) := by decide +kernel
  obtain ⟨hcode, ⟨w₁, hlogs, hworld⟩, -⟩ := hends.uncompiled _ _ hsource hcompile
  refine ⟨reports_standard, hargs, hends, hcode, ?_⟩
  rw [hworld, hlogs.quiet rfl]
  have hsaid : "" ++ Libraries.standard.report "compiling a.lua"
      (.rejected (.unexpected 1 [.mark .closeParen] (.mark .eof))) =
      "Error: compiling a.lua\n\nCaused by:\n" ++
        "    line 1: expected one of [CLOSE_PAR], got EOF\n" := by
    decide +kernel
  exact congrArg (fun said => { w with complaints := said }) hsaid

end Command
end Onepass
