import JsxPresence.Watch
import JsxPresence.Proofs.Analysis.Dependencies

namespace JsxPresence

open Session Analysis

/-- A file to analyze, as it is on disk or with the text given. -/
structure Request where
  path : Bytes
  text? : Option Bytes := none

/-- What may happen while a host is running. -/
inductive Operation where
  | analyze (request : Request)
  | transform (request : Request)
  /-- Files come, go, or get another content. -/
  | change (nodes : List (Place × Node))
  /-- The host is told of a change. -/
  | notify (path : Bytes) (event : FileEvent)

namespace Operation

def request? : Operation → Option Request
  | analyze r | transform r => some r
  | change _ | notify _ _ => none

def filesAfter (files : FileSystem) : Operation → FileSystem
  | change nodes => { files with nodes := nodes }
  | analyze _ | transform _ | notify _ _ => files

/-- Whether a host has yet to be told of a file that came or went, if it had so before. -/
def dueAfter (due : Prop) (files : FileSystem) : Operation → Prop
  | change nodes => due ∨ ¬files.SameTree { files with nodes := nodes }
  | notify _ event => due ∧ event = .update
  | analyze _ | transform _ => due

end Operation

inductive Answer where
  | analysis (result : Except Failure Analysis)
  | text (result : Except Failure Bytes)
deriving DecidableEq

/-- The files as they are, and what is remembered. -/
structure Host where
  files : FileSystem
  workspace : Workspace

namespace Host

def answer? (options : Options) (h : Host) : Operation → Option Answer
  | .analyze r => some (.analysis (Analysis.analyze ⟨options, h.files⟩ r.path r.text? h.workspace).1)
  | .transform r =>
    some (.text (Analysis.transform ⟨options, h.files⟩ r.path r.text? h.workspace).1)
  | .change _ | .notify _ _ => none

def workspaceAfter (options : Options) (h : Host) : Operation → Workspace
  | .analyze r => (Analysis.analyze ⟨options, h.files⟩ r.path r.text? h.workspace).2
  | .transform r => (Analysis.transform ⟨options, h.files⟩ r.path r.text? h.workspace).2
  | .change _ => h.workspace
  | .notify path event => h.workspace.fileChanged path event

/-- What a host answers, operation by operation. -/
def answers (options : Options) (h : Host) : List Operation → List (Option Answer)
  | [] => []
  | op :: ops =>
    h.answer? options op :: answers options ⟨op.filesAfter h.files, h.workspaceAfter options op⟩ ops

/-- What hosts answer that are started for one operation each. -/
def freshAnswers (options : Options) (journal : Log.Journal) (files : FileSystem) :
    List Operation → List (Option Answer)
  | [] => []
  | op :: ops =>
    answer? options ⟨files, .start journal⟩ op ::
      freshAnswers options journal (op.filesAfter files) ops

/-- Before it is asked again, a host is told of all files that came or went. -/
def Announced (due : Prop) (files : FileSystem) : List Operation → Prop
  | [] => True
  | op :: ops =>
    (op.request?.isSome = true → ¬due) ∧
      Announced (op.dueAfter due files) (op.filesAfter files) ops

/-- All requests are of a kind. -/
def Throughout (P : Environment → Request → Prop) (options : Options) (files : FileSystem) :
    List Operation → Prop
  | [] => True
  | op :: ops =>
    (∀ r, op.request? = some r → P ⟨options, files⟩ r) ∧
      Throughout P options (op.filesAfter files) ops

end Host

/-- No directory has a line break in its name, be it one of the file system or that of a text that
is given. -/
structure Request.OneLine (env : Environment) (r : Request) : Prop where
  files : env.files.OneLine
  given : r.text?.isSome = true → byte '\n' ∉ directory env r.path

/-- The analysis comes to no path with a zero byte. -/
def Request.ZeroFree (env : Environment) (r : Request) : Prop :=
  ∀ text file, givenText? env r.path r.text? = some text → parsed? env r.path text = some file →
    ∀ p, Reached env file p → 0 ∉ p

/-- What is remembered is where the specifier leads, whatever directory and specifier it is
remembered for. -/
def Fits (env : Environment) (key : Bytes) (found : Option Bytes) : Prop :=
  ∀ directory specifier, byte '\n' ∉ directory → key = Workspace.key directory specifier →
    found = Specifier.find? env specifier directory

def Workspace.Fitting (env : Environment) (w : Workspace) : Prop :=
  ∀ key found, w.resolved.get? key = some found → Fits env key found

theorem Workspace.Fitting.congr {env env' : Environment} (hs : env.SameTree env') {w : Workspace}
    (h : w.Fitting env) : w.Fitting env' := by
  intro key found hget directory specifier hd hkey
  rw [Specifier.find?_congr hs]
  exact h key found hget directory specifier hd hkey

theorem Workspace.fitting_of_empty (env : Environment) {w : Workspace} (h : w.resolved = .empty) :
    w.Fitting env := by
  intro key found hget
  rw [h] at hget
  cases hget

/-- Once it is told of more than a new content, a host remembers nothing that could be wrong. -/
theorem Workspace.fitting_fileChanged {env : Environment} {w : Workspace} (path : Bytes)
    {event : FileEvent} (h : event = .update → w.Fitting env) :
    (w.fileChanged path event).Fitting env := by
  cases event with
  | update => exact h rfl
  | create | delete | rename => exact fitting_of_empty env rfl

theorem Request.zeroFree_of_closedUnder {env : Environment} {r : Request} {paths : List Bytes}
    (h0 : ∀ p ∈ paths, 0 ∉ p)
    (h : (givenText? env r.path r.text?).all (fun text =>
      (parsed? env r.path text).all (closedUnder env · paths)) = true) : r.ZeroFree env := by
  intro text file hg hp p hr
  rw [hg, Option.all_some, hp, Option.all_some] at h
  exact h0 p (hr.mem_of_closedUnder h)

section request

variable {env : Environment} {r : Request} {file f : ParsedFile} {text p : Bytes} {w : Workspace}
  (hc : Path.isAbsolute env.files.cwd = true) (hl : r.OneLine env) (hz : r.ZeroFree env)
include hc hl hz

/-- The files that an analysis comes to are in directories without line breaks. -/
theorem Request.newline_not_mem_directory (hg : givenText? env r.path r.text? = some text)
    (hp : parsed? env r.path text = some file) (hr : Reached env file p)
    (hf : shelf env file p = .ok f) : byte '\n' ∉ directory env p := by
  have hpath := (read_of_parsed? hp).2.1
  have h0 := hz text file hg hp p hr
  by_cases hown : p = file.path
  · have hnorm : env.normalize (env.normalize r.path) = env.normalize r.path :=
      Path.normalize_normalize hc r.path
    rw [hown, hpath] at h0 ⊢
    rw [directory, hnorm]
    cases ht : r.text? with
    | some t => exact hl.given (by rw [ht]; rfl)
    | none =>
      rw [givenText?, ht] at hg
      exact Session.newline_not_mem_directory hc hl.files h0 hg
  · obtain ⟨c, -, rfl⟩ := hr.namesFile hown
    have hnorm : env.normalize (env.normalize c) = env.normalize c := Path.normalize_normalize hc c
    rw [shelf, if_neg hown] at hf
    obtain ⟨text, hread, -⟩ := disk_eq_ok hf
    rw [← hnorm] at h0 hread
    exact Session.newline_not_mem_directory hc hl.files h0 hread

theorem Request.answers_fits (hg : givenText? env r.path r.text? = some text)
    (hp : parsed? env r.path text = some file) : Answers env file (Fits env) :=
  fun _ _ hr hf specifier _ _ _ hfits =>
    hfits _ specifier (newline_not_mem_directory hc hl hz hg hp hr hf) rfl

theorem Request.fits_of_traced (hg : givenText? env r.path r.text? = some text)
    (hp : parsed? env r.path text = some file) {key : Bytes} {found : Option Bytes}
    (h : Traced env file key found) : Fits env key found := by
  obtain ⟨p, f, specifier, hr, hf, -, rfl, rfl⟩ := h
  intro d s hd hkey
  obtain ⟨rfl, rfl⟩ :=
    Bytes.sep_append_inj (newline_not_mem_directory hc hl hz hg hp hr hf) hd hkey
  rfl

/-- One analysis comes out as in a host that has just been started, and what is remembered after it
fits again. -/
theorem Request.run_of_fitting (hw : w.Fitting env) (journal : Log.Journal) :
    (run env r.path r.text? w).1 = (run env r.path r.text? (.start journal)).1 ∧
      (run env r.path r.text? w).2.Fitting env := by
  by_cases hu : ∀ text, givenText? env r.path r.text? = some text → parsed? env r.path text = none
  · refine ⟨run_fst_of_unparsed hu _ _, ?_⟩
    rw [Workspace.Fitting, run_resolved_of_unparsed hu]
    exact hw
  · simp only [not_forall] at hu
    obtain ⟨text, hg, hp⟩ := hu
    obtain ⟨file, hp⟩ := Option.ne_none_iff_exists'.1 hp
    have hstart : Mirror env env file (Fits env) (opened env r.path text (.start journal))
        (opened env r.path text w) := opened_mirror (.refl env) hp rfl hw
    rcases (ofFile_mirror (.refl env) hc hp (answers_fits hc hl hz hg hp)).step _ _ hstart with
      ⟨heq, hm⟩ | ⟨hlost, -⟩
    · refine ⟨?_, fun key found hget => ?_⟩
      · calc (run env r.path r.text? w).1
          _ = (ofFile env file (opened env r.path text w)).1.map (·, text) := run_of_parsed hg hp w
          _ = (ofFile env file (opened env r.path text (.start journal))).1.map (·, text) :=
            congrArg (Except.map (·, text)) heq.symm
          _ = (run env r.path r.text? (.start journal)).1 := (run_of_parsed hg hp _).symm
      · rw [run_snd_of_parsed hg hp] at hget
        rcases hm.covers.extra key found hget with hget | hfits
        · exact fits_of_traced hc hl hz hg hp (hm.tracked.resolved key found hget)
        · exact hfits
    · obtain ⟨p, -, hne⟩ := hlost.changed
      exact absurd rfl hne

end request

namespace Host

variable {options : Options} {h : Host} {op : Operation}

/-- What is remembered after an operation fits, unless a file came or went of which the host was
not told. -/
theorem fitting_workspaceAfter {due : Prop} (hc : Path.isAbsolute h.files.cwd = true)
    (hl : ∀ r, op.request? = some r → r.OneLine ⟨options, h.files⟩)
    (hz : ∀ r, op.request? = some r → r.ZeroFree ⟨options, h.files⟩)
    (hdue : ¬due → h.workspace.Fitting ⟨options, h.files⟩)
    (hnot : ¬op.dueAfter due h.files) :
    (h.workspaceAfter options op).Fitting ⟨options, op.filesAfter h.files⟩ := by
  cases op with
  | analyze r =>
    rw [workspaceAfter, analyze_snd]
    exact (Request.run_of_fitting hc (hl r rfl) (hz r rfl) (hdue hnot) (.ofLevel .off)).2
  | transform r =>
    rw [workspaceAfter, transform_snd]
    exact (Request.run_of_fitting hc (hl r rfl) (hz r rfl) (hdue hnot) (.ofLevel .off)).2
  | change nodes =>
    obtain ⟨hnot, hs⟩ := not_or.1 hnot
    have hsame : Environment.SameTree ⟨options, h.files⟩
        ⟨options, Operation.filesAfter h.files (.change nodes)⟩ := ⟨rfl, not_not.1 hs⟩
    exact (hdue hnot).congr hsame
  | notify path event =>
    exact Workspace.fitting_fileChanged path fun hu => hdue fun hd => hnot ⟨hd, hu⟩

/-- With a memory that fits, the answer is that of a host that has just been started. -/
theorem answer?_of_fitting (hc : Path.isAbsolute h.files.cwd = true)
    (hl : ∀ r, op.request? = some r → r.OneLine ⟨options, h.files⟩)
    (hz : ∀ r, op.request? = some r → r.ZeroFree ⟨options, h.files⟩)
    (hw : op.request?.isSome = true → h.workspace.Fitting ⟨options, h.files⟩)
    (journal : Log.Journal) :
    h.answer? options op = answer? options ⟨h.files, .start journal⟩ op := by
  cases op with
  | analyze r =>
    rw [answer?, answer?, analyze_fst, analyze_fst,
      (Request.run_of_fitting hc (hl r rfl) (hz r rfl) (hw rfl) journal).1]
  | transform r =>
    rw [answer?, answer?, transform_fst, transform_fst,
      (Request.run_of_fitting hc (hl r rfl) (hz r rfl) (hw rfl) journal).1]
  | change nodes => rfl
  | notify path event => rfl

theorem answers_of_fitting {due : Prop} {ops : List Operation}
    (hc : Path.isAbsolute h.files.cwd = true)
    (hdue : ¬due → h.workspace.Fitting ⟨options, h.files⟩) (ha : Announced due h.files ops)
    (hl : Throughout (fun env r => r.OneLine env) options h.files ops)
    (hz : Throughout (fun env r => r.ZeroFree env) options h.files ops) (journal : Log.Journal) :
    h.answers options ops = freshAnswers options journal h.files ops := by
  induction ops generalizing h due with
  | nil => rfl
  | cons op ops ih =>
    have hcwd : (op.filesAfter h.files).cwd = h.files.cwd := by cases op <;> rfl
    rw [answers, freshAnswers,
      answer?_of_fitting hc hl.1 hz.1 (fun hr => hdue (ha.1 hr)) journal]
    congr 1
    exact ih (h := ⟨op.filesAfter h.files, h.workspaceAfter options op⟩) (by rw [hcwd]; exact hc)
      (fitting_workspaceAfter hc hl.1 hz.1 hdue) ha.2 hl.2 hz.2

/-- A host that is told of all files that come and go answers every request like one that has just
been started, if no directory has a line break in its name and no path a zero byte. -/
theorem answers_eq_freshAnswers (options : Options) (journal journal' : Log.Journal)
    (files : FileSystem) (ops : List Operation) (hc : Path.isAbsolute files.cwd = true)
    (ha : Announced False files ops)
    (hl : Throughout (fun env r => r.OneLine env) options files ops)
    (hz : Throughout (fun env r => r.ZeroFree env) options files ops) :
    answers options ⟨files, .start journal⟩ ops = freshAnswers options journal' files ops :=
  answers_of_fitting hc (fun _ => Workspace.fitting_of_empty _ rfl) ha hl hz journal'

/-- A project of one file, which imports another one. -/
def early : FileSystem :=
  (FileSystem.bare (utf8 "/proj")).install (utf8 "/proj/a.tsx")
    (utf8 "import \x7bLate\x7d from './late';<Late/>")

/-- The same with the other file. -/
def late (text : Bytes) : FileSystem := early.install (utf8 "/proj/late.tsx") text

/-- The file is analyzed before the other one is there, and after each change of it. -/
def lateHistory : List Operation :=
  [.analyze ⟨utf8 "a.tsx", none⟩,
   .change (late (utf8 "export const Late = 1;")).nodes,
   .notify (utf8 "/proj/late.tsx") .create,
   .analyze ⟨utf8 "a.tsx", none⟩,
   .change (late (utf8 "export const Late = 2;")).nodes,
   .transform ⟨utf8 "a.tsx", none⟩]

theorem answers_eq_freshAnswers_lateHistory :
    answers {} ⟨early, .start (.ofLevel .off)⟩ lateHistory =
      freshAnswers {} (.ofLevel .off) early lateHistory := by
  have oneLine {files : FileSystem} (h : ∀ e ∈ files.nodes, e.2 = .directory →
      ∀ name ∈ e.1, byte '\n' ∉ name) (r : Request) (hr : some ⟨utf8 "a.tsx", none⟩ = some r) :
      r.OneLine ⟨{}, files⟩ := by
    cases hr
    exact ⟨FileSystem.oneLine_of_nodes h, nofun⟩
  have zeroFree {files : FileSystem} (h : (givenText? ⟨{}, files⟩ (utf8 "a.tsx") none).all
      (fun text => (parsed? ⟨{}, files⟩ (utf8 "a.tsx") text).all (closedUnder ⟨{}, files⟩ ·
        [utf8 "/proj/a.tsx", utf8 "/proj/late.tsx"])) = true) (r : Request)
      (hr : some ⟨utf8 "a.tsx", none⟩ = some r) : r.ZeroFree ⟨{}, files⟩ := by
    cases hr
    exact Request.zeroFree_of_closedUnder (by decide +kernel) h
  refine answers_eq_freshAnswers {} _ _ early lateHistory (by decide +kernel) ?_ ?_ ?_
  · refine ⟨fun _ => id, nofun, nofun, fun _ h => ?_, nofun, fun _ h => ?_, trivial⟩
    · cases h.2
    · rcases h with h | h
      · cases h.2
      · exact h (.install early (utf8 "/proj/late.tsx") _ _)
  · exact ⟨oneLine (by decide +kernel), nofun, nofun, oneLine (by decide +kernel), nofun,
      oneLine (by decide +kernel), trivial⟩
  · exact ⟨zeroFree (by decide +kernel), nofun, nofun, zeroFree (by decide +kernel), nofun,
      zeroFree (by decide +kernel), trivial⟩

/-- A project in which paths with a zero byte are come to. What is before that byte is a file, and
behind it there is something like a directory, which has a line break in its name. -/
def confusing : FileSystem :=
  ((((FileSystem.bare (utf8 "/proj")).install (utf8 "/proj/a1.tsx")
      (utf8 "import \x7bAa\x7d from './b.tsx" ++ 0 :: utf8 "\\\n./z\\/x';<Aa/>")).install
    (utf8 "/proj/a2.tsx")
      (utf8 "import \x7bBb\x7d from './b.tsx" ++ 0 :: utf8 "\\/x';<Bb/>;<Target/>")).install
    (utf8 "/proj/b.tsx") (utf8 ("export \x7bCc as Aa\x7d from '../../c';" ++
      "export \x7bCc as Bb\x7d from './z\\\n../../c'"))).install (utf8 "/proj/c.tsx")
    (utf8 "export const Cc = component$((p) => isComponentPresent(Target))")

def confusion : List Operation :=
  [.analyze ⟨utf8 "a1.tsx", none⟩, .analyze ⟨utf8 "a2.tsx", none⟩]

/-- There the second of two analyses is answered with what the first one remembered for another
specifier. -/
theorem answers_ne_freshAnswers :
    Path.isAbsolute confusing.cwd = true ∧ Announced False confusing confusion ∧
    Throughout (fun env r => r.OneLine env) {} confusing confusion ∧
    answers {} ⟨confusing, .start (.ofLevel .off)⟩ confusion ≠
      freshAnswers {} (.ofLevel .off) confusing confusion := by
  have hlines : confusing.OneLine := FileSystem.oneLine_of_nodes (by decide +kernel)
  have oneLine (path : Bytes) (r : Request) (hr : some ⟨path, none⟩ = some r) :
      r.OneLine ⟨{}, confusing⟩ := by
    cases hr
    exact ⟨hlines, nofun⟩
  exact ⟨by decide +kernel, ⟨fun _ => id, fun _ => id, trivial⟩,
    ⟨oneLine (utf8 "a1.tsx"), oneLine (utf8 "a2.tsx"), trivial⟩, by decide +kernel⟩

end Host

end JsxPresence
