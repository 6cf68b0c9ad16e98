import JsxPresence.FileSystem
import JsxPresence.Proofs.Path

namespace JsxPresence

/-- The node apart from its content. -/
def Node.isDirectory : Node → Bool
  | .file _ => false
  | .directory => true

theorem Node.eq_directory_iff {node? : Option Node} :
    node? = some .directory ↔ node?.map isDirectory = some true := by
  cases node? with
  | none => simp
  | some node => cases node <;> simp [isDirectory]

namespace FileSystem

variable {fs fs' : FileSystem}

/-- A place that can be walked to from the root: all places above it are directories. -/
inductive Standing (fs : FileSystem) : Place → Prop
  | root : Standing fs []
  | enter {place : Place} {name : Bytes} : Standing fs place →
    fs.nodeAt place = some .directory → Path.Ordinary name →
    (fs.nodeAt (place ++ [name])).isSome = true → Standing fs (place ++ [name])

theorem Standing.of_snoc {place : Place} {name : Bytes} (h : Standing fs (place ++ [name])) :
    Standing fs place ∧ fs.nodeAt place = some .directory ∧ Path.Ordinary name ∧
      (fs.nodeAt (place ++ [name])).isSome = true := by
  generalize hp : place ++ [name] = whole at h
  cases h with
  | root => simp at hp
  | enter hs hd ho hn =>
    obtain ⟨rfl, hname⟩ := List.append_inj' hp rfl
    cases hname
    exact ⟨hs, hd, ho, hn⟩

theorem follow_append (fs : FileSystem) (place : Place) (ms ns : List Bytes) :
    fs.follow place (ms ++ ns) = (fs.follow place ms).bind (fs.follow · ns) := by
  fun_induction follow fs place ms with
  | case1 => rfl
  | _ => simp_all [follow]

theorem follow_standing {place : Place} (h : Standing fs place) :
    fs.follow [] place = some place := by
  induction h with
  | root => rfl
  | enter _ hd ho hn ih =>
    rw [follow_append, ih, Option.bind_some, follow]
    simp [hd, ho.ne_nil, ho.ne_dot, ho.ne_dotDot, hn, follow]

/-- Walking along names and taking them in come to the same place, and only at a directory may a
slash end the names. -/
theorem foldl_of_follow {place q : Place} {ns : List Bytes} (h : fs.follow place ns = some q)
    (hp : Standing fs place) (hs : ∀ n ∈ ns, Path.slash ∉ n) {b : Bool}
    (hb : b = true → fs.nodeAt place = some .directory) :
    ∃ trailing, ns.foldl (Path.Partial.take true) ⟨place.reverse, b⟩ = ⟨q.reverse, trailing⟩ ∧
      Standing fs q ∧ (trailing = true → fs.nodeAt q = some .directory) := by
  induction ns generalizing place b with
  | nil =>
    cases h
    exact ⟨b, rfl, hp, hb⟩
  | cons name ns ih =>
    have hs' : ∀ n ∈ ns, Path.slash ∉ n := fun n hn => hs n (List.mem_cons_of_mem _ hn)
    rw [follow] at h
    rw [List.foldl_cons]
    obtain ⟨hd, h⟩ | ⟨hd, h⟩ := ite_eq_some h
    · cases h
    have hd : fs.nodeAt place = some .directory := not_not.1 hd
    obtain ⟨hn, h⟩ | ⟨hn, h⟩ := ite_eq_some h
    · rw [Path.Partial.take, if_pos hn]
      exact ih h hp hs' fun _ => hd
    rw [Path.Partial.take, if_neg hn]
    obtain ⟨hdd, h⟩ | ⟨hdd, h⟩ := ite_eq_some h
    · rw [if_pos hdd]
      rcases List.eq_nil_or_concat place with rfl | ⟨before, last, rfl⟩
      · exact ih h .root hs' fun _ => rfl
      · rw [List.concat_eq_append] at h hp ⊢
        obtain ⟨hb, hbd, ho, -⟩ := hp.of_snoc
        rw [List.dropLast_concat] at h
        rw [List.reverse_append, List.reverse_singleton, List.singleton_append]
        simp only [if_neg ho.ne_dotDot]
        exact ih h hb hs' fun _ => hbd
    · rw [if_neg hdd]
      obtain ⟨hsome, h⟩ | ⟨-, h⟩ := ite_eq_some h
      · have hname : Path.Ordinary name := by
          simp only [Bool.or_eq_true, List.isEmpty_iff, decide_eq_true_eq, not_or] at hn
          exact ⟨hn.1, hn.2, hdd, hs name List.mem_cons_self⟩
        have hrev : name :: place.reverse = (place ++ [name]).reverse := by simp
        rw [hrev]
        exact ih h (.enter hp hd hname hsome) hs' fun hf => by cases hf
      · cases h

theorem takeWhile_ne_zero {p : Bytes} (h : 0 ∉ p) : p.takeWhile (· ≠ 0) = p :=
  List.takeWhile_eq_self_iff.2 fun b hb => by simpa using fun e : b = 0 => h (e ▸ hb)

theorem isEmptyText_of_isAbsolute {p : Bytes} (h : Path.isAbsolute p = true) :
    isEmptyText p = false := by
  cases p with
  | nil => cases h
  | cons b r =>
    have hb : b = Path.slash := by simpa [Path.isAbsolute] using h
    rw [hb]
    rfl

theorem find?_eq (fs : FileSystem) (p : Bytes) :
    fs.find? p = if isEmptyText p = true then none
      else (fs.follow [] (fs.namesOf p)).bind fs.nodeAt := by
  unfold find?
  cases isEmptyText p <;> rfl

/-- The places at the end of a path at which there is something. -/
theorem find?_eq_some {p : Bytes} {node : Node} (h : fs.find? p = some node) :
    isEmptyText p = false ∧ ∃ place, fs.follow [] (fs.namesOf p) = some place ∧
      fs.nodeAt place = some node := by
  rw [find?_eq] at h
  obtain ⟨-, h⟩ | ⟨he, h⟩ := ite_eq_some h
  · cases h
  · exact ⟨eq_false_of_ne_true he, Option.bind_eq_some_iff.1 h⟩

theorem find?_of_follow {p : Bytes} (he : isEmptyText p = false) {place : Place}
    (h : fs.follow [] (fs.namesOf p) = some place) : fs.find? p = fs.nodeAt place := by
  rw [find?_eq, he, h]
  rfl

/-- The names of a normal form lead to the place they name. -/
theorem follow_ending {place : Place} (hs : Standing fs place) {trailing : Bool}
    (ht : trailing = true → fs.nodeAt place = some .directory) :
    fs.follow [] (if place.reverse = [] then [] else Path.Partial.ending ⟨place.reverse, trailing⟩) =
      some place := by
  have hwalk := follow_standing hs
  rcases List.eq_nil_or_concat place with rfl | ⟨before, last, rfl⟩
  · rfl
  · rw [if_neg (by simp), Path.Partial.ending, List.reverse_reverse]
    cases trailing with
    | false => simpa using hwalk
    | true =>
      rw [if_pos (by simp), follow_append, hwalk, Option.bind_some, follow, ht rfl]
      rfl

/-- The working directory is an absolute path without a zero byte. -/
structure Rooted (fs : FileSystem) : Prop where
  absolute : Path.isAbsolute fs.cwd = true
  zero_not_mem : 0 ∉ fs.cwd

theorem namesOf_normal {p : Bytes} (hp : Path.Normal p) (h0 : 0 ∉ p) :
    fs.namesOf p = Path.names p := by
  rw [namesOf, takeWhile_ne_zero h0, Path.join_of_isAbsolute hp.isAbsolute]

/-- Where a normal form leads: to the place of its names, which is a directory if a slash ends
it. -/
theorem standing_of_find? {q : Path.Partial} (hq : q.Fine) (h0 : 0 ∉ Path.rooted q.ending)
    {node : Node} (h : fs.find? (Path.rooted q.ending) = some node) :
    Standing fs q.kept.reverse ∧ fs.nodeAt q.kept.reverse = some node ∧
      (q.trailing = true → q.kept ≠ [] → node = .directory) := by
  obtain ⟨-, place, hf, hn⟩ := find?_eq_some h
  rw [namesOf_normal ⟨q, hq, rfl⟩ h0, Path.names_rooted_ending hq] at hf
  by_cases hk : q.kept = []
  · rw [if_pos hk] at hf
    cases hf
    rw [hk]
    exact ⟨.root, hn, fun _ hne => absurd rfl hne⟩
  · rw [if_neg hk] at hf
    obtain ⟨trailing, hfold, hs, ht⟩ := foldl_of_follow hf .root hq.slash_not_mem_ending
      (b := false) (fun hf => by cases hf)
    rw [List.reverse_nil, Path.Partial.foldl_ending hq hk] at hfold
    have hplace : q.kept.reverse = place := by rw [hfold, List.reverse_reverse]
    rw [hplace]
    refine ⟨hs, hn, fun htrue _ => ?_⟩
    have hd := ht (by rw [← htrue, hfold])
    rw [hn] at hd
    exact Option.some.inj hd

/-- The normal form of a path leads where the path leads. -/
theorem find?_normalize (hr : fs.Rooted) {p : Bytes} (h0 : 0 ∉ p) {node : Node}
    (h : fs.find? p = some node) : fs.find? (Path.normalize fs.cwd p) = some node := by
  obtain ⟨he, place, hf, hn⟩ := find?_eq_some h
  have hp : p ≠ [] := by
    rintro rfl
    cases he
  rw [namesOf, takeWhile_ne_zero h0] at hf
  have habs := Path.isAbsolute_join hr.absolute p
  have hjoin0 : 0 ∉ Path.join fs.cwd p := by
    intro hm
    rcases Path.mem_join hm with hm | hm | hm
    · exact hr.zero_not_mem hm
    · exact h0 hm
    · exact absurd hm (by decide)
  have hnormal0 : 0 ∉ Path.normal (Path.join fs.cwd p) := by
    intro hm
    rcases Path.mem_normal habs hm with hm | hm
    · exact absurd hm (by decide)
    · exact hjoin0 hm
  obtain ⟨trailing, hfold, hs, ht⟩ := foldl_of_follow hf .root
    (fun _ hn => Path.names_slash_not_mem hn) (b := false) (fun hf => by cases hf)
  rw [List.reverse_nil] at hfold
  have hnorm := Path.isNormal_normal habs
  rw [Path.normalize, List.isEmpty_eq_false_iff.2 hp]
  change fs.find? (Path.normal (Path.join fs.cwd p)) = _
  rw [← hn]
  refine find?_of_follow (isEmptyText_of_isAbsolute hnorm.isAbsolute) ?_
  rw [namesOf_normal hnorm hnormal0, Path.normal_eq_rooted habs, hfold]
  have hfine : Path.Partial.Fine ⟨place.reverse, trailing⟩ := by
    rw [← hfold]
    exact Path.Partial.fine_foldl Path.Partial.fine_start fun _ hn => Path.names_slash_not_mem hn
  rw [Path.names_rooted_ending hfine]
  exact follow_ending hs ht

theorem isFile_iff {p : Bytes} :
    fs.isFile p = true ↔ ∃ content, fs.find? p = some (.file content) := by
  unfold isFile
  cases fs.find? p with
  | none => simp
  | some node => cases node <;> simp

theorem isFile_eq (fs : FileSystem) (p : Bytes) :
    fs.isFile p = decide ((fs.find? p).map Node.isDirectory = some false) := by
  unfold isFile
  cases fs.find? p with
  | none => rfl
  | some node => cases node <;> rfl

theorem isFile_normalize (hr : fs.Rooted) {p : Bytes} (h0 : 0 ∉ p) (h : fs.isFile p = true) :
    fs.isFile (Path.normalize fs.cwd p) = true := by
  obtain ⟨content, hf⟩ := isFile_iff.1 h
  exact isFile_iff.2 ⟨content, find?_normalize hr h0 hf⟩

/-- No directory has a line break in its name. -/
def OneLine (fs : FileSystem) : Prop :=
  ∀ place, fs.nodeAt place = some .directory → ∀ name ∈ place, byte '\n' ∉ name

theorem oneLine_of_nodes
    (h : ∀ e ∈ fs.nodes, e.2 = .directory → ∀ name ∈ e.1, byte '\n' ∉ name) : fs.OneLine := by
  intro place hd
  unfold nodeAt at hd
  rcases ite_eq_some hd with ⟨he, -⟩ | ⟨-, hd⟩
  · rw [List.isEmpty_iff.1 he]
    exact fun _ hn => by cases hn
  · obtain ⟨before, after, hnodes, -⟩ := List.lookup_eq_some_iff.1 hd
    exact h (place, .directory) (by rw [hnodes]; simp) rfl

/-- The directory of a path at which there is something has no line break in its name. -/
theorem newline_not_mem_parent (hl : fs.OneLine) {p : Bytes} (hp : Path.Normal p) (h0 : 0 ∉ p)
    {node : Node} (h : fs.find? p = some node) : byte '\n' ∉ Path.parent p := by
  obtain ⟨q, hq, rfl⟩ := hp
  obtain ⟨hs, hn, ht⟩ := standing_of_find? hq h0 h
  obtain ⟨before, last, he, hcases⟩ := q.ending_eq_snoc
  have hlast := hq.slash_not_mem_ending last (by rw [he]; simp)
  have hbefore : fs.nodeAt before = some .directory ∧ ∀ n ∈ before, Path.Ordinary n := by
    rcases hcases with ⟨-, rfl, -⟩ | ⟨hk, ⟨htrue, rfl, -⟩ | ⟨-, hkept⟩⟩
    · exact ⟨rfl, fun _ hn => by cases hn⟩
    · rw [hn, ht htrue hk]
      exact ⟨rfl, fun n hm => hq n (List.mem_reverse.1 hm)⟩
    · rw [hkept] at hs
      refine ⟨hs.of_snoc.2.1, fun n hm => hq n (List.mem_reverse.1 ?_)⟩
      rw [hkept]
      exact List.mem_append_left _ hm
  rw [he, Path.parent_rooted_snoc (fun n hm => ⟨(hbefore.2 n hm).ne_nil,
    (hbefore.2 n hm).slash_not_mem⟩) hlast]
  split
  · decide
  · intro hm
    rcases Path.mem_rooted hm with hm | ⟨n, hmem, hm⟩
    · exact absurd hm (by decide)
    · exact hl before hbefore.1 n hmem hm

/-- The same files and directories, whatever is in the files. -/
structure SameTree (fs fs' : FileSystem) : Prop where
  cwd : fs'.cwd = fs.cwd
  isDirectory : ∀ place,
    (fs'.nodeAt place).map Node.isDirectory = (fs.nodeAt place).map Node.isDirectory

namespace SameTree

theorem refl (fs : FileSystem) : SameTree fs fs := ⟨rfl, fun _ => rfl⟩

/-- What is written into a file makes no difference to the tree. -/
theorem put (fs : FileSystem) (place : Place) (content content' : Bytes) :
    SameTree (fs.put place (.file content)) (fs.put place (.file content')) where
  cwd := rfl
  isDirectory q := by
    unfold nodeAt
    cases q.isEmpty with
    | true => rfl
    | false =>
      by_cases hq : (q == place) = true
      · simp [FileSystem.put, List.lookup_cons, hq, Node.isDirectory]
      · simp [FileSystem.put, List.lookup_cons, hq]

theorem install (fs : FileSystem) (path content content' : Bytes) :
    SameTree (fs.install path content) (fs.install path content') :=
  put _ _ content content'

variable (h : SameTree fs fs')
include h

theorem isSome (place : Place) : (fs'.nodeAt place).isSome = (fs.nodeAt place).isSome := by
  simpa using congrArg Option.isSome (h.isDirectory place)

theorem directory_iff (place : Place) :
    fs'.nodeAt place = some .directory ↔ fs.nodeAt place = some .directory := by
  rw [Node.eq_directory_iff, Node.eq_directory_iff, h.isDirectory]

theorem follow (place : Place) (ns : List Bytes) : fs'.follow place ns = fs.follow place ns := by
  induction ns generalizing place with
  | nil => rfl
  | cons n ns ih => simp only [FileSystem.follow, ne_eq, h.directory_iff, h.isSome, ih]

theorem find? (p : Bytes) :
    (fs'.find? p).map Node.isDirectory = (fs.find? p).map Node.isDirectory := by
  have hnames : fs'.namesOf p = fs.namesOf p := by
    unfold namesOf
    rw [h.cwd]
  rw [find?_eq, find?_eq, hnames, h.follow]
  split
  · rfl
  · cases fs.follow [] (fs.namesOf p) with
    | none => rfl
    | some place => exact h.isDirectory place

theorem isFile (p : Bytes) : fs'.isFile p = fs.isFile p := by
  rw [isFile_eq, isFile_eq, h.find?]

theorem isDirectory_eq (p : Bytes) : fs'.isDirectory p = fs.isDirectory p := by
  unfold FileSystem.isDirectory
  simp only [Node.eq_directory_iff, h.find?]

theorem read?_isSome (p : Bytes) : (fs'.read? p).isSome = (fs.read? p).isSome := by
  simpa [FileSystem.read?] using congrArg Option.isSome (h.find? p)

end SameTree

end FileSystem

end JsxPresence
