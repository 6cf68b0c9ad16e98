import JsxPresence.Specifier
import JsxPresence.Proofs.FileSystem

namespace JsxPresence

/-- Environments that differ in the contents of files only. -/
structure Environment.SameTree (env env' : Environment) : Prop where
  options : env'.options = env.options
  files : env.files.SameTree env'.files

theorem Environment.SameTree.refl (env : Environment) : env.SameTree env := ⟨rfl, .refl env.files⟩

namespace Specifier

variable {env env' : Environment}

/-- The path is the normal form of one at which there is a file. -/
def NamesFile (env : Environment) (path : Bytes) : Prop :=
  ∃ c, env.files.isFile c = true ∧ path = env.normalize c

theorem firstFile?_namesFile {paths : List Bytes} {path : Bytes}
    (h : firstFile? env paths = some path) : NamesFile env path := by
  obtain ⟨c, hc, rfl⟩ := Option.map_eq_some_iff.1 h
  exact ⟨c, List.find?_some hc, rfl⟩

theorem directoryIndex?_namesFile {base path : Bytes} (h : directoryIndex? env base = some path) :
    NamesFile env path := by
  unfold directoryIndex? at h
  split at h
  · rename_i hf
    cases h
    exact ⟨base, hf, rfl⟩
  · obtain ⟨-, h⟩ | ⟨-, h⟩ := ite_eq_some h
    · exact firstFile?_namesFile h
    · cases h

theorem find?_namesFile {specifier directory path : Bytes}
    (h : find? env specifier directory = some path) : NamesFile env path := by
  obtain ⟨base, -, h⟩ := Option.bind_eq_some_iff.1 h
  unfold probe? at h
  split at h
  · rename_i hf
    cases h
    exact firstFile?_namesFile hf
  · exact directoryIndex?_namesFile h

variable (h : env.SameTree env')
include h

theorem normalize_congr : env'.normalize = env.normalize := by
  funext path
  simp only [Environment.normalize, h.files.cwd]

theorem firstFile?_congr (paths : List Bytes) : firstFile? env' paths = firstFile? env paths := by
  have hf : env'.files.isFile = env.files.isFile := funext h.files.isFile
  simp only [firstFile?, hf, normalize_congr h]

theorem probe?_congr (base : Bytes) : probe? env' base = probe? env base := by
  have hf : env'.files.isFile = env.files.isFile := funext h.files.isFile
  have hd : env'.files.isDirectory = env.files.isDirectory := funext h.files.isDirectory_eq
  simp only [probe?, directoryIndex?, firstFile?_congr h, normalize_congr h, h.options, hf, hd]

theorem base?_congr (specifier directory : Bytes) :
    base? env' specifier directory = base? env specifier directory := by
  have hf : env'.files.isFile = env.files.isFile := funext h.files.isFile
  simp only [base?, projectRoot?, normalize_congr h, h.options, hf]

/-- The contents of files have no part in where a specifier leads. -/
theorem find?_congr (specifier directory : Bytes) :
    find? env' specifier directory = find? env specifier directory := by
  simp only [find?, base?_congr h, probe?_congr h]

end Specifier

end JsxPresence
