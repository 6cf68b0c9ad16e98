import JsxPresence.Proofs.FileSystem
import JsxPresence.Proofs.Token.Extent
import JsxPresence.Table

namespace JsxPresence.FileSystem

variable {fs fs' fs'' : FileSystem} {touched : Place → Prop} {path content : Bytes} {place : Place}

theorem guard_bind_eq_some {α : Type} {p : Prop} [Decidable p] {x : Option α} {a : α} :
    ((guard p : Option Unit) >>= fun _ => x) = some a ↔ p ∧ x = some a := by
  unfold guard
  split
  next h => exact (and_iff_right h).symm
  next h => exact iff_of_false nofun fun hx => h hx.1

/-- The place of a path is that of a name in the directory to which the names before it lead. -/
theorem place?_eq_some_iff : fs.place? path = some place ↔
    isEmptyText path = false ∧ ∃ name directory, (fs.namesOf path).getLast? = some name ∧
      (name.isEmpty || name = Path.dot || name = Path.dotDot) = false ∧
      fs.follow [] (fs.namesOf path).dropLast = some directory ∧
      fs.nodeAt directory = some .directory ∧
      fs.nodeAt (directory ++ [name]) ≠ some .directory ∧ place = directory ++ [name] := by
  unfold place?
  rw [guard_bind_eq_some, Bool.not_eq_true']
  refine and_congr_right fun _ => ⟨fun h => ?_, ?_⟩
  · obtain ⟨name, hname, h⟩ := Option.bind_eq_some_iff.1 h
    obtain ⟨hplain, h⟩ := guard_bind_eq_some.1 h
    obtain ⟨directory, hfollow, h⟩ := Option.bind_eq_some_iff.1 h
    obtain ⟨hdirectory, h⟩ := guard_bind_eq_some.1 h
    obtain ⟨hnode, h⟩ := guard_bind_eq_some.1 h
    exact ⟨name, directory, hname, by simpa using hplain, hfollow, hdirectory, hnode,
      (Option.some.inj h).symm⟩
  · rintro ⟨name, directory, hname, hplain, hfollow, hdirectory, hnode, rfl⟩
    refine Option.bind_eq_some_iff.2 ⟨name, hname, guard_bind_eq_some.2 ⟨by simpa using hplain, ?_⟩⟩
    refine Option.bind_eq_some_iff.2 ⟨directory, hfollow, ?_⟩
    exact guard_bind_eq_some.2 ⟨hdirectory, guard_bind_eq_some.2 ⟨hnode, rfl⟩⟩

/-- The place at which a file of this path is or would be. -/
def At (fs : FileSystem) (path : Bytes) (place : Place) : Prop := fs.place? path = some place

theorem At.unique {place' : Place} (h : fs.At path place) (h' : fs.At path place') :
    place = place' := Option.some.inj (h.symm.trans h')

/-- No file has the empty path. -/
theorem not_at_nil (place : Place) : ¬fs.At [] place := by
  rw [At, place?_eq_some_iff]
  exact fun h => nomatch h.1

/-- Two file systems with the same directories, and the same files but for those at some places. -/
structure AgreeOff (touched : Place → Prop) (fs fs' : FileSystem) : Prop where
  cwd : fs'.cwd = fs.cwd
  directory_iff : ∀ place, fs'.nodeAt place = some .directory ↔ fs.nodeAt place = some .directory
  nodeAt : ∀ place, ¬touched place → fs'.nodeAt place = fs.nodeAt place

/-- Names that lead to a directory do so wherever the directories are the same. -/
theorem follow_of_directories
    (h : ∀ place, fs.nodeAt place = some .directory → fs'.nodeAt place = some .directory)
    {start last : Place} {ns : List Bytes} (hf : fs.follow start ns = some last)
    (hl : fs.nodeAt last = some .directory) : fs'.follow start ns = some last := by
  induction ns generalizing start with
  | nil => exact hf
  | cons name ns ih =>
    rw [follow] at hf ⊢
    obtain ⟨-, hf⟩ | ⟨hd, hf⟩ := ite_eq_some hf
    · cases hf
    rw [if_neg (not_not.2 (h start (not_not.1 hd)))]
    obtain ⟨hn, hf⟩ | ⟨hn, hf⟩ := ite_eq_some hf
    · rw [if_pos hn]
      exact ih hf
    rw [if_neg hn]
    obtain ⟨hdd, hf⟩ | ⟨hdd, hf⟩ := ite_eq_some hf
    · rw [if_pos hdd]
      exact ih hf
    rw [if_neg hdd]
    obtain ⟨-, hf⟩ | ⟨-, hf⟩ := ite_eq_some hf
    · have hinner : fs.nodeAt (start ++ [name]) = some .directory := by
        cases ns with
        | nil =>
          cases hf
          exact hl
        | cons next ns =>
          rw [follow] at hf
          obtain ⟨-, hf⟩ | ⟨hd, -⟩ := ite_eq_some hf
          · cases hf
          · exact not_not.1 hd
      rw [if_pos (by rw [h _ hinner]; rfl)]
      exact ih hf
    · cases hf

namespace AgreeOff

theorem refl (touched : Place → Prop) (fs : FileSystem) : AgreeOff touched fs fs :=
  ⟨rfl, fun _ => Iff.rfl, fun _ _ => rfl⟩

theorem trans (h : AgreeOff touched fs fs') (h' : AgreeOff touched fs' fs'') :
    AgreeOff touched fs fs'' where
  cwd := h'.cwd.trans h.cwd
  directory_iff place := (h'.directory_iff place).trans (h.directory_iff place)
  nodeAt place hp := (h'.nodeAt place hp).trans (h.nodeAt place hp)

theorem mono {touched' : Place → Prop} (h : AgreeOff touched fs fs')
    (ht : ∀ place, touched place → touched' place) : AgreeOff touched' fs fs' :=
  ⟨h.cwd, h.directory_iff, fun place hp => h.nodeAt place fun hq => hp (ht place hq)⟩

theorem symm (h : AgreeOff touched fs fs') : AgreeOff touched fs' fs :=
  ⟨h.cwd.symm, fun place => (h.directory_iff place).symm, fun place hp => (h.nodeAt place hp).symm⟩

theorem place?_eq_some (h : AgreeOff touched fs fs') (hp : fs.place? path = some place) :
    fs'.place? path = some place := by
  obtain ⟨he, name, directory, hname, hplain, hfollow, hdirectory, hnode, hplace⟩ :=
    place?_eq_some_iff.1 hp
  have hnames : fs'.namesOf path = fs.namesOf path := by
    unfold namesOf
    rw [h.cwd]
  refine place?_eq_some_iff.2 ⟨he, name, directory, ?_, hplain, ?_, ?_, ?_, hplace⟩
  · rw [hnames, hname]
  · rw [hnames]
    exact follow_of_directories (fun place => (h.directory_iff place).2) hfollow hdirectory
  · exact (h.directory_iff directory).2 hdirectory
  · exact fun hd => hnode ((h.directory_iff _).1 hd)

/-- The places of all paths are the same. -/
theorem place? (h : AgreeOff touched fs fs') (path : Bytes) : fs'.place? path = fs.place? path :=
  Option.ext fun _ => ⟨fun hp => h.symm.place?_eq_some hp, fun hp => h.place?_eq_some hp⟩

theorem at_iff (h : AgreeOff touched fs fs') : fs'.At path place ↔ fs.At path place := by
  rw [At, At, h.place?]

end AgreeOff

theorem nodeAt_put_self (fs : FileSystem) (hp : place ≠ []) (node : Node) :
    (fs.put place node).nodeAt place = some node := by
  unfold nodeAt put
  rw [List.isEmpty_eq_false_iff.2 hp]
  simp

theorem nodeAt_put_ne (fs : FileSystem) {other : Place} (h : other ≠ place) (node : Node) :
    (fs.put place node).nodeAt other = fs.nodeAt other := by
  have hfilter : fs.nodes.filter (fun e => e.1 ≠ place) = fs.nodes.filter (fun e => e.1 != place) :=
    List.filter_congr fun e _ => by rw [Bool.eq_iff_iff, decide_eq_true_iff, bne_iff_ne]
  have hother : (other == place) = false := beq_eq_false_iff_ne.2 h
  unfold nodeAt put
  rw [hfilter, List.lookup_cons, hother]
  exact ite_congr rfl (fun _ => rfl) fun _ => Table.lookup_filter_ne h fs.nodes

theorem place?_ne_nil (h : fs.place? path = some place) : place ≠ [] := by
  obtain ⟨-, name, directory, -, -, -, -, -, rfl⟩ := place?_eq_some_iff.1 h
  simp

/-- There is no directory at the place of a path. -/
theorem nodeAt_place? (h : fs.place? path = some place) : fs.nodeAt place ≠ some .directory := by
  obtain ⟨-, name, directory, -, -, -, -, hnode, rfl⟩ := place?_eq_some_iff.1 h
  exact hnode

theorem write?_of_at (h : fs.At path place) (content : Bytes) :
    fs.write? path content = some (fs.put place (.file content)) := by
  rw [FileSystem.write?, h]
  rfl

theorem write?_of_place?_eq_none (h : fs.place? path = none) (content : Bytes) :
    fs.write? path content = none := by
  rw [FileSystem.write?, h]
  rfl

theorem write?_eq_some (h : fs.write? path content = some fs') :
    ∃ place, fs.place? path = some place ∧ fs' = fs.put place (.file content) := by
  obtain ⟨place, hp, he⟩ := Option.map_eq_some_iff.1 h
  exact ⟨place, hp, he.symm⟩

theorem append?_eq_some (h : fs.append? path content = some fs') :
    ∃ place, fs.place? path = some place ∧
      fs' = fs.put place (.file (fs.contentAt place ++ content)) := by
  obtain ⟨place, hp, he⟩ := Option.map_eq_some_iff.1 h
  exact ⟨place, hp, he.symm⟩

namespace AgreeOff

theorem put (h : fs.place? path = some place) (content : Bytes) :
    AgreeOff (· = place) fs (fs.put place (.file content)) where
  cwd := rfl
  directory_iff other := by
    by_cases ho : other = place
    · rw [ho, nodeAt_put_self fs (place?_ne_nil h)]
      exact iff_of_false nofun (nodeAt_place? h)
    · rw [nodeAt_put_ne fs ho]
  nodeAt other ho := nodeAt_put_ne fs ho _

/-- Writing touches the place of the path only. -/
theorem write? (h : fs.write? path content = some fs') :
    AgreeOff (fs.At path) fs fs' := by
  obtain ⟨place, hp, rfl⟩ := write?_eq_some h
  exact (put hp content).mono fun _ hq => hq.symm ▸ hp

theorem append? (h : fs.append? path content = some fs') :
    AgreeOff (fs.At path) fs fs' := by
  obtain ⟨place, hp, rfl⟩ := append?_eq_some h
  exact (put hp _).mono fun _ hq => hq.symm ▸ hp

end AgreeOff

end JsxPresence.FileSystem
