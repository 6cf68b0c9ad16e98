import JsxPresence.Proofs.CommandLine.Arguments
import JsxPresence.Proofs.CommandLine.Command
import JsxPresence.Proofs.Log.Sink

namespace JsxPresence.CommandLine

open FileSystem

/-- The path of the log file. -/
def logPath? (args : List Bytes) : Option Bytes := lastValue? Log.Arguments.fileOption args

/-- The files as a command finds them: with the log file opened. -/
def opened (args : List Bytes) (around : Surroundings) (files : FileSystem) : FileSystem :=
  (Log.Logger.configure (Log.Arguments.parse args around.logSetting) around.terminal files).2.2

/-- The log file of a run is or would be at the place. -/
def LogAt (args : List Bytes) (files : FileSystem) (place : Place) : Prop :=
  ∃ path, logPath? args = some path ∧ files.At path place

section

variable {args : List Bytes} {around : Surroundings} {files : FileSystem} {c : CommandLine}

theorem logAt_iff (setting : Option Bytes) {place : Place} :
    files.At (Log.Arguments.parse args setting).file place ↔ LogAt args files place := by
  rw [Log.Arguments.file_parse, LogAt, logPath?]
  cases lastValue? Log.Arguments.fileOption args with
  | none => exact iff_of_false (not_at_nil place) nofun
  | some path => exact ⟨fun h => ⟨path, rfl, h⟩, fun ⟨_, hp, h⟩ => Option.some.inj hp ▸ h⟩

theorem opened_frame (args : List Bytes) (around : Surroundings) (files : FileSystem) :
    AgreeOff (LogAt args files) files (opened args around files) :=
  (Log.Logger.configure_frame _ around.terminal files).1.mono
    fun _ => (logAt_iff around.logSetting).1

theorem writeLog_frame {logger : Log.Logger} {path : Bytes}
    (h : ∀ sink ∈ logger.sinks, sink.WritesOnly path) (time : Int) (entries : List Log.Entry)
    (fs : FileSystem) : AgreeOff (fs.At path) fs (writeLog logger time entries fs).2 := by
  induction entries generalizing logger fs with
  | nil => exact .refl _ _
  | cons entry entries ih =>
    obtain ⟨hwrite, hsinks⟩ := Log.Logger.write_frame h ⟨entry, time⟩ fs
    exact hwrite.trans ((ih hsinks _).mono fun _ hp => hwrite.at_iff.1 hp)

theorem runLogged_of_error {error : UsageError} (hp : parse args = .error error) :
    (runLogged args around files).files = opened args around files := by
  unfold runLogged
  rw [hp]
  rfl

/-- A run is a command on the opened files; then the log is written. -/
theorem runLogged_of_ok (hp : parse args = .ok c) :
    ∃ w : Workspace, w.resolved = .empty ∧
      (runLogged args around files).exitCode =
        (runCommand c (opened args around files) w).exitCode ∧
      (runLogged args around files).stdout =
        (runCommand c (opened args around files) w).stdout ∧
      AgreeOff (LogAt args files) (runCommand c (opened args around files) w).files
        (runLogged args around files).files := by
  obtain ⟨-, hsinks⟩ := Log.Logger.configure_frame
    (Log.Arguments.parse args around.logSetting) around.terminal files
  let w : Workspace := .start ⟨(Log.Logger.configure
    (Log.Arguments.parse args around.logSetting) around.terminal files).1.gate, #[]⟩
  have hlogged : ∀ place, (runCommand c (opened args around files) w).files.At
      (Log.Arguments.parse args around.logSetting).file place → LogAt args files place := by
    intro place hplace
    rw [← logAt_iff around.logSetting, ← (opened_frame args around files).at_iff,
      ← (@runCommand_frame c _ w rfl).at_iff]
    exact hplace
  refine ⟨w, rfl, ?_⟩
  unfold runLogged
  rw [hp]
  exact ⟨rfl, rfl, (writeLog_frame hsinks _ _ _).mono hlogged⟩

/-- Arguments that ask for help or the version are no command on a file, and touch none. -/
theorem run_cases (args : List Bytes) (around : Surroundings) (files : FileSystem) :
    run args around files = runLogged args around files ∨
    ((run args around files).files = files ∧ ∀ c, parse args = .ok c →
      c.command ≠ utf8 "analyze" ∧ c.command ≠ utf8 "deps" ∧ c.command ≠ utf8 "transform") := by
  cases args with
  | nil => exact .inr ⟨rfl, nofun⟩
  | cons first rest =>
    have hcommand {c : CommandLine} (hp : parse (first :: rest) = .ok c) : first = c.command :=
      Option.some.inj (command_of_parse hp)
    unfold run
    dsimp only
    split
    next h =>
      refine .inr ⟨rfl, fun c hp => ?_⟩
      rw [← hcommand hp]
      obtain rfl | rfl : first = utf8 "--help" ∨ first = utf8 "-h" := by simpa using h
      · decide
      · decide
    next =>
      split
      next h =>
        refine .inr ⟨rfl, fun c hp => ?_⟩
        rw [← hcommand hp]
        obtain rfl | rfl : first = utf8 "--version" ∨ first = utf8 "-V" := by simpa using h
        · decide
        · decide
      next => exact .inl rfl

/-- The file for transformed text is or would be at the place. -/
def OutputAt (args : List Bytes) (files : FileSystem) (place : Place) : Prop :=
  ∃ path, outputPath? args = some path ∧ files.At path place

/-- The arguments are a command to transform, and the analysis of its file gives the text. -/
def Transforms (args : List Bytes) (around : Surroundings) (files : FileSystem)
    (journal : Log.Journal) (text : Bytes) : Prop :=
  ∃ c, parse args = .ok c ∧ c.command = utf8 "transform" ∧
    c.transformed journal (opened args around files) = .ok text

theorem output_of_parse (h : parse args = .ok c) : c.output = outputPath? args := by
  rw [parse_eq_map] at h
  cases hp : parse (withoutOutput args) with
  | error _ => rw [hp] at h; cases h
  | ok d =>
    rw [hp] at h
    cases h
    rfl

theorem run_eq_runLogged (h : parse args = .ok c) (hc : c.command = utf8 "analyze" ∨
    c.command = utf8 "deps" ∨ c.command = utf8 "transform") :
    run args around files = runLogged args around files := by
  obtain hrun | ⟨-, hnone⟩ := run_cases args around files
  · exact hrun
  · obtain ⟨h1, h2, h3⟩ := hnone c h
    exact absurd hc (by simp [h1, h2, h3])

/-- A run touches the log file and, if its command is to transform, the file for its text. -/
theorem run_agreeOff (args : List Bytes) (around : Surroundings) (files : FileSystem) :
    AgreeOff (fun place => LogAt args files place ∨
      (args.head? = some (utf8 "transform") ∧ OutputAt args files place))
      files (run args around files).files := by
  have hopened := opened_frame args around files
  obtain hrun | ⟨hrun, -⟩ := run_cases args around files
  · rw [hrun]
    cases hp : parse args with
    | error _ =>
      rw [runLogged_of_error hp]
      exact hopened.mono fun _ => .inl
    | ok c =>
      obtain ⟨w, hw, -, -, hlog⟩ := @runLogged_of_ok args around files c hp
      refine (hopened.mono fun _ => .inl).trans
        (.trans ((runCommand_frame hw).mono ?_) (hlog.mono fun _ => .inl))
      rintro place ⟨hc, output, ho, hplace⟩
      refine .inr ⟨hc ▸ command_of_parse hp, output, ?_, hopened.at_iff.1 hplace⟩
      rw [← output_of_parse hp, ho]
  · rw [hrun]
    exact .refl _ _

/-- A file other than the log file changes only if there is a transformed text. -/
theorem transforms_of_changed {place : Place} (hl : ¬LogAt args files place)
    (hchanged : (run args around files).files.nodeAt place ≠ files.nodeAt place)
    (journal : Log.Journal) : ∃ text, Transforms args around files journal text := by
  have hopened := opened_frame args around files
  obtain hrun | ⟨hrun, -⟩ := run_cases args around files
  · rw [hrun] at hchanged
    cases hp : parse args with
    | error _ =>
      rw [runLogged_of_error hp] at hchanged
      exact absurd (hopened.nodeAt place hl) hchanged
    | ok c =>
      obtain ⟨w, hw, -, -, hlog⟩ := @runLogged_of_ok args around files c hp
      obtain hsame | ⟨hc, output, text, -, ht, -⟩ :=
        @runCommand_files c (opened args around files) w hw journal
      · rw [hlog.nodeAt place hl, hsame, hopened.nodeAt place hl] at hchanged
        exact absurd rfl hchanged
      · exact ⟨text, c, hp, hc, ht⟩
  · rw [hrun] at hchanged
    exact absurd rfl hchanged

/-- The text is written if the file can be opened. -/
theorem run_of_transforms {journal : Log.Journal} {text output : Bytes}
    (h : Transforms args around files journal text) (ho : outputPath? args = some output) :
    (∀ place, files.At output place → ¬LogAt args files place →
      (run args around files).files.nodeAt place = some (.file text) ∧
        (run args around files).exitCode = 0) ∧
    (files.place? output = none → (run args around files).exitCode = 1) := by
  obtain ⟨c, hp, hc, ht⟩ := h
  have hoc := (output_of_parse hp).trans ho
  have hopened := opened_frame args around files
  rw [run_eq_runLogged hp (.inr (.inr hc))]
  obtain ⟨w, hw, hexit, -, hlog⟩ := @runLogged_of_ok args around files c hp
  rw [runCommand_of_transform hc] at hexit hlog
  have hw' : (c.begun w).resolved = .empty := hw
  refine ⟨fun place hplace hl => ?_, fun hnone => ?_⟩
  · have hwrite : (opened args around files).write? output text =
        some ((opened args around files).put place (.file text)) :=
      write?_of_at (hopened.at_iff.2 hplace) text
    obtain ⟨h1, h2⟩ := runTransform_of_writable hw' ht hoc hwrite
    rw [hlog.nodeAt place hl, hexit, h1, h2]
    exact ⟨nodeAt_put_self _ (place?_ne_nil hplace) _, rfl⟩
  · have hwrite : (opened args around files).write? output text = none :=
      write?_of_place?_eq_none ((hopened.place? output).trans hnone) text
    rw [hexit]
    exact (runTransform_of_unwritable hw' ht hoc hwrite).1

/-- Without a path for it, the text is printed. -/
theorem stdout_of_transforms {journal : Log.Journal} {text : Bytes}
    (h : Transforms args around files journal text) :
    (run (withoutOutput args) around files).stdout = text := by
  obtain ⟨c, hp, hc, ht⟩ := h
  rw [parse_eq_map] at hp
  cases hd : parse (withoutOutput args) with
  | error _ => rw [hd] at hp; cases hp
  | ok d =>
    rw [hd] at hp
    cases hp
    have hc : d.command = utf8 "transform" := hc
    have ho : d.output = none := (output_of_parse hd).trans (outputPath?_withoutOutput args)
    have hopened : opened (withoutOutput args) around files = opened args around files := by
      rw [opened, opened, logParse_withoutOutput]
    have ht : d.transformed journal (opened (withoutOutput args) around files) = .ok text :=
      hopened ▸ ht
    rw [run_eq_runLogged hd (.inr (.inr hc))]
    obtain ⟨w, hw, -, hout, -⟩ := @runLogged_of_ok (withoutOutput args) around files d hd
    rw [hout, runCommand_of_transform hc]
    exact (runTransform_of_none (w := d.begun w) hw ht ho).1

theorem run_of_fails {journal : Log.Journal} (hp : parse args = .ok c)
    (h : c.Fails journal (opened args around files)) :
    (run args around files).exitCode = 1 ∧ ∀ place, ¬LogAt args files place →
      (run args around files).files.nodeAt place = files.nodeAt place := by
  have hc : c.command = utf8 "analyze" ∨ c.command = utf8 "deps" ∨ c.command = utf8 "transform" :=
    h.elim (fun h => or_assoc.1 (.inl h.1)) fun h => .inr (.inr h.1)
  rw [run_eq_runLogged hp hc]
  obtain ⟨w, hw, hexit, -, hlog⟩ := @runLogged_of_ok args around files c hp
  obtain ⟨h1, h2⟩ := runCommand_of_fails hw h
  refine ⟨hexit.trans h1, fun place hl => ?_⟩
  rw [hlog.nodeAt place hl, h2, (opened_frame args around files).nodeAt place hl]

/-- A run touches no file but the log file and, if its command is to transform, the file for the
transformed text, given that these are not the same. The latter changes only if the arguments can be
read and the file can be analyzed; then it holds the text that else is printed, unless it cannot be
opened. -/
theorem run_frame (args : List Bytes) (around : Surroundings) (files : FileSystem)
    (journal : Log.Journal) (h : ∀ place, OutputAt args files place → ¬LogAt args files place) :
    ((run args around files).files.cwd = files.cwd ∧
      ∀ place, ¬LogAt args files place →
        ¬(args.head? = some (utf8 "transform") ∧ OutputAt args files place) →
        (run args around files).files.nodeAt place = files.nodeAt place) ∧
    (∀ place, OutputAt args files place →
      (run args around files).files.nodeAt place ≠ files.nodeAt place →
      ∃ text, Transforms args around files journal text) ∧
    (∀ text, Transforms args around files journal text →
      (run (withoutOutput args) around files).stdout = text ∧
      ∀ output, outputPath? args = some output →
        (∀ place, files.At output place →
          (run args around files).files.nodeAt place = some (.file text) ∧
            (run args around files).exitCode = 0) ∧
        (files.place? output = none → (run args around files).exitCode = 1)) ∧
    ∀ c, parse args = .ok c → c.Fails journal (opened args around files) →
      (run args around files).exitCode = 1 ∧ ∀ place, OutputAt args files place →
        (run args around files).files.nodeAt place = files.nodeAt place := by
  refine ⟨⟨(run_agreeOff args around files).cwd, fun place hl ho => ?_⟩, fun place ho hchanged => ?_,
    fun text ht => ⟨stdout_of_transforms ht, fun output ho => ?_⟩, fun c hp hf => ?_⟩
  · exact (run_agreeOff args around files).nodeAt place (not_or.2 ⟨hl, ho⟩)
  · exact transforms_of_changed (h place ho) hchanged journal
  · obtain ⟨hwritten, hunopened⟩ := run_of_transforms ht ho
    exact ⟨fun place hplace => hwritten place hplace (h place ⟨output, ho, hplace⟩), hunopened⟩
  · obtain ⟨hexit, hsame⟩ := run_of_fails hp hf
    exact ⟨hexit, fun place ho => hsame place (h place ho)⟩

end

/-- A page that asks a question, and an older text where its transformed text goes. -/
def pageFiles : FileSystem :=
  ((bare (utf8 "/proj")).install (utf8 "/proj/a.tsx")
    (utf8 "component$((props) => isComponentPresent(A))")).install (utf8 "/proj/b.tsx") (utf8 "old")

def pageArgs : List Bytes :=
  [utf8 "transform", utf8 "--log-file=run.log", utf8 "a.tsx", utf8 "-v", utf8 "--output=./b.tsx"]

def answeredPage : Bytes :=
  utf8 "component$((props) => isComponentPresent(A, props.__qwik_analyzer_has_A))"

theorem run_frame_page :
    (∀ place, OutputAt pageArgs pageFiles place → ¬LogAt pageArgs pageFiles place) ∧
    Transforms pageArgs ⟨none, ⟨false, none⟩, 0⟩ pageFiles (.ofLevel .off) answeredPage ∧
    (run pageArgs ⟨none, ⟨false, none⟩, 0⟩ pageFiles).files.nodeAt
      [utf8 "proj", utf8 "b.tsx"] = some (.file answeredPage) ∧
    (run pageArgs ⟨none, ⟨false, none⟩, 0⟩ pageFiles).exitCode = 0 := by
  have houtput : pageFiles.At (utf8 "./b.tsx") [utf8 "proj", utf8 "b.tsx"] := by
    unfold At
    decide +kernel
  have hlog : pageFiles.At (utf8 "run.log") [utf8 "proj", utf8 "run.log"] := by
    unfold At
    decide +kernel
  have hother : ∀ place, OutputAt pageArgs pageFiles place → ¬LogAt pageArgs pageFiles place := by
    rintro place ⟨path, hpath, hplace⟩ ⟨path', hpath', hplace'⟩
    obtain rfl : utf8 "./b.tsx" = path := Option.some.inj hpath
    obtain rfl : utf8 "run.log" = path' := Option.some.inj hpath'
    exact absurd ((houtput.unique hplace).trans (hplace'.unique hlog)) (by decide)
  have htext : Transforms pageArgs ⟨none, ⟨false, none⟩, 0⟩ pageFiles (.ofLevel .off)
      answeredPage := ⟨_, rfl, rfl, by decide +kernel⟩
  obtain ⟨-, hwritten⟩ := (run_frame pageArgs ⟨none, ⟨false, none⟩, 0⟩ pageFiles (.ofLevel .off)
    hother).2.2.1 answeredPage htext
  exact ⟨hother, htext, (hwritten _ rfl).1 _ houtput⟩

end JsxPresence.CommandLine
