import JsxPresence.CommandLine.Run
import JsxPresence.Proofs.Analysis.Twin
import JsxPresence.Proofs.FileSystem.Writing

namespace JsxPresence.CommandLine

open FileSystem

/-- The text that a command to transform comes to, starting with a journal. -/
def transformed (c : CommandLine) (journal : Log.Journal) (files : FileSystem) :
    Except Analysis.Failure Bytes :=
  (Analysis.transform ⟨c.options, files⟩ c.file none (.start journal)).1

/-- The command is one that analyzes a file, and the analysis fails. -/
def Fails (c : CommandLine) (journal : Log.Journal) (files : FileSystem) : Prop :=
  ((c.command = utf8 "analyze" ∨ c.command = utf8 "deps") ∧
    ∃ failure, (Analysis.analyze ⟨c.options, files⟩ c.file none (.start journal)).1 =
      .error failure) ∨
  (c.command = utf8 "transform" ∧ ∃ failure, c.transformed journal files = .error failure)

section

variable {c : CommandLine} {journal : Log.Journal} {files files' : FileSystem} {w : Workspace}
  {text output : Bytes} {failure : Analysis.Failure}

/-- The journal of a workspace that remembers nothing makes no difference. -/
theorem transform_eq_transformed (hw : w.resolved = .empty) :
    (Analysis.transform ⟨c.options, files⟩ c.file none w).1 = c.transformed journal files :=
  Analysis.transform_fst_congr _ _ hw

theorem exists_transform_eq (hw : w.resolved = .empty) {answer : Except Analysis.Failure Bytes}
    (h : c.transformed journal files = answer) :
    ∃ w', Analysis.transform ⟨c.options, files⟩ c.file none w = (answer, w') :=
  ⟨_, Prod.ext ((transform_eq_transformed hw).trans h) rfl⟩

theorem runTransform_of_error (hw : w.resolved = .empty)
    (h : c.transformed journal files = .error failure) :
    (runTransform c files w).exitCode = 1 ∧ (runTransform c files w).files = files := by
  obtain ⟨w', ht⟩ := exists_transform_eq hw h
  simp only [runTransform, ht]
  exact ⟨rfl, rfl⟩

theorem runTransform_of_none (hw : w.resolved = .empty)
    (h : c.transformed journal files = .ok text) (ho : c.output = none) :
    (runTransform c files w).stdout = text ∧ (runTransform c files w).files = files := by
  obtain ⟨w', ht⟩ := exists_transform_eq hw h
  simp only [runTransform, ht, ho]
  exact ⟨rfl, rfl⟩

theorem runTransform_of_unwritable (hw : w.resolved = .empty)
    (h : c.transformed journal files = .ok text) (ho : c.output = some output)
    (hwrite : files.write? output text = none) :
    (runTransform c files w).exitCode = 1 ∧ (runTransform c files w).files = files := by
  obtain ⟨w', ht⟩ := exists_transform_eq hw h
  simp only [runTransform, ht, ho, hwrite]
  exact ⟨rfl, rfl⟩

theorem runTransform_of_writable (hw : w.resolved = .empty)
    (h : c.transformed journal files = .ok text) (ho : c.output = some output)
    (hwrite : files.write? output text = some files') :
    (runTransform c files w).exitCode = 0 ∧ (runTransform c files w).files = files' := by
  obtain ⟨w', ht⟩ := exists_transform_eq hw h
  simp only [runTransform, ht, ho, hwrite]
  exact ⟨rfl, rfl⟩

/-- A command leaves all files alone, or writes the text it finds to the path stated for it. -/
theorem runTransform_files (hw : w.resolved = .empty) (journal : Log.Journal) :
    (runTransform c files w).files = files ∨
      ∃ output text, c.output = some output ∧ c.transformed journal files = .ok text ∧
        files.write? output text = some (runTransform c files w).files := by
  cases h : c.transformed journal files with
  | error failure => exact .inl (runTransform_of_error hw h).2
  | ok text =>
    cases ho : c.output with
    | none => exact .inl (runTransform_of_none hw h ho).2
    | some output =>
      cases hwrite : files.write? output text with
      | none => exact .inl (runTransform_of_unwritable hw h ho hwrite).2
      | some files' =>
        refine .inr ⟨output, text, rfl, rfl, ?_⟩
        rw [hwrite, (runTransform_of_writable hw h ho hwrite).2]

theorem runAnalyze_files : (runAnalyze c files w).files = files := by
  unfold runAnalyze
  split <;> rfl

theorem runAnalyze_of_error (hw : w.resolved = .empty)
    (h : (Analysis.analyze ⟨c.options, files⟩ c.file none (.start journal)).1 = .error failure) :
    (runAnalyze c files w).exitCode = 1 := by
  have ha := (@Analysis.analyze_eq_error_congr _ _ none _ w hw failure).2 h
  unfold runAnalyze
  split
  next => rfl
  next heq =>
    rw [heq] at ha
    cases ha

/-- The workspace of a command, with a note of the command. -/
def begun (c : CommandLine) (w : Workspace) : Workspace :=
  w.note .info (utf8 "cli") (c.command ++ utf8 " " ++ c.file)

/-- The three kinds of commands. -/
theorem runCommand_cases (c : CommandLine) (files : FileSystem) (w : Workspace) :
    ((c.command = utf8 "analyze" ∨ c.command = utf8 "deps") ∧
      runCommand c files w = runAnalyze c files (c.begun w)) ∨
    (c.command = utf8 "transform" ∧ runCommand c files w = runTransform c files (c.begun w)) ∨
    (¬(c.command = utf8 "analyze" ∨ c.command = utf8 "deps") ∧ c.command ≠ utf8 "transform" ∧
      (runCommand c files w).files = files) := by
  unfold runCommand
  dsimp only
  split
  next h => exact .inl ⟨by simpa using h, rfl⟩
  next h =>
    have hne : ¬(c.command = utf8 "analyze" ∨ c.command = utf8 "deps") := by simpa using h
    split
    next ht => exact .inr (.inl ⟨ht, rfl⟩)
    next ht => exact .inr (.inr ⟨hne, ht, rfl⟩)

theorem runCommand_of_transform (hc : c.command = utf8 "transform") (files : FileSystem)
    (w : Workspace) : runCommand c files w = runTransform c files (c.begun w) := by
  obtain ⟨ha | ha, -⟩ | ⟨-, h⟩ | ⟨-, hne, -⟩ := runCommand_cases c files w
  · exact absurd (hc.symm.trans ha) (by decide)
  · exact absurd (hc.symm.trans ha) (by decide)
  · exact h
  · exact absurd hc hne

/-- A command leaves all files alone, or it is one to transform and writes the text it finds. -/
theorem runCommand_files (hw : w.resolved = .empty) (journal : Log.Journal) :
    (runCommand c files w).files = files ∨
      c.command = utf8 "transform" ∧ ∃ output text, c.output = some output ∧
        c.transformed journal files = .ok text ∧
        files.write? output text = some (runCommand c files w).files := by
  have hw : (c.begun w).resolved = .empty := hw
  obtain ⟨-, h⟩ | ⟨hc, h⟩ | ⟨-, -, h⟩ := runCommand_cases c files w
  · rw [h]
    exact .inl runAnalyze_files
  · rw [h]
    exact (runTransform_files hw journal).imp id fun ht => ⟨hc, ht⟩
  · exact .inl h

/-- A command touches the file for transformed text only. -/
theorem runCommand_frame (hw : w.resolved = .empty) :
    AgreeOff (fun place => c.command = utf8 "transform" ∧
      ∃ output, c.output = some output ∧ files.At output place)
      files (runCommand c files w).files := by
  obtain h | ⟨hc, output, text, ho, -, hwrite⟩ :=
    @runCommand_files c files w hw (.ofLevel .off)
  · rw [h]
    exact .refl _ _
  · exact (AgreeOff.write? hwrite).mono fun place hp => ⟨hc, output, ho, hp⟩

theorem runCommand_of_fails (hw : w.resolved = .empty) (h : c.Fails journal files) :
    (runCommand c files w).exitCode = 1 ∧ (runCommand c files w).files = files := by
  have hw : (c.begun w).resolved = .empty := hw
  obtain ⟨ha, failure, hf⟩ | ⟨ht, failure, hf⟩ := h
  · obtain ⟨-, h⟩ | ⟨hc, -⟩ | ⟨hne, -⟩ := runCommand_cases c files w
    · rw [h]
      exact ⟨runAnalyze_of_error hw hf, runAnalyze_files⟩
    · rw [hc] at ha
      exact absurd ha (by decide)
    · exact absurd ha hne
  · rw [runCommand_of_transform ht]
    exact runTransform_of_error hw hf

end

end JsxPresence.CommandLine
