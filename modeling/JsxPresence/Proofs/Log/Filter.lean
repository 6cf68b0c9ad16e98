import Mathlib.Data.List.TakeWhile
import JsxPresence.Log.Logger

namespace JsxPresence.Log

namespace Level

/-- The quieter of two levels. -/
def higher (a b : Level) : Level := if a.rank ≤ b.rank then b else a

theorem rank_inj {a b : Level} (h : a.rank = b.rank) : a = b := by
  cases a <;> cases b <;> first | rfl | cases h

theorem rank_lower (a b : Level) : (a.lower b).rank = min a.rank b.rank := by
  unfold lower
  split <;> omega

theorem rank_higher (a b : Level) : (a.higher b).rank = max a.rank b.rank := by
  unfold higher
  split <;> omega

theorem lower_comm (a b : Level) : a.lower b = b.lower a :=
  rank_inj (by rw [rank_lower, rank_lower, Nat.min_comm])

theorem lower_self (a : Level) : a.lower a = a := by
  unfold lower
  split <;> rfl

theorem lower_eq_higher_iff (a b : Level) : a.lower b = a.higher b ↔ b = a := by
  constructor
  · intro h
    have hrank := congrArg rank h
    rw [rank_lower, rank_higher] at hrank
    exact rank_inj (by omega)
  · rintro rfl
    exact rank_inj (by rw [rank_lower, rank_higher, Nat.min_self, Nat.max_self])

/-- A threshold is told by the levels that pass it. -/
theorem eq_of_passes_iff {a b : Level} (h : ∀ l : Level, a.rank ≤ l.rank ↔ b.rank ≤ l.rank) :
    a = b :=
  rank_inj (Nat.le_antisymm ((h b).2 (Nat.le_refl _)) ((h a).1 (Nat.le_refl _)))

end Level

namespace Filter

def star : Bytes := utf8 "*"

/-- The items of a specification: what stands between its commas, unless that is empty. -/
def items (spec : Bytes) : List Bytes := (Bytes.fields (byte ',') spec).filter (!·.isEmpty)

/-- An item that names a module or the star, and the level it asks for: all records, or from the
level behind the first `=` on. -/
inductive Asks (name : Bytes) : Bytes → Level → Prop
  | bare (h : byte '=' ∉ name) : Asks name name .trace
  | stated (h : byte '=' ∉ name) (level : Bytes) :
      Asks name (name ++ byte '=' :: level) (Level.ofText level)

/-- None of the items has the name. -/
def Unasked (name : Bytes) (texts : List Bytes) : Prop := ∀ t ∈ texts, ∀ l, ¬Asks name t l

/-- The level that the last item with a name asks for. -/
inductive LastAsks (name : Bytes) : List Bytes → Level → Prop
  | here {text : Bytes} {rest : List Bytes} {level : Level} (h : Asks name text level)
      (hrest : Unasked name rest) : LastAsks name (text :: rest) level
  | later {text : Bytes} {rest : List Bytes} {level : Level} (h : LastAsks name rest level) :
      LastAsks name (text :: rest) level

/-- The star names no module. -/
def Listed (spec module : Bytes) (level : Level) : Prop :=
  module ≠ star ∧ LastAsks module (items spec) level

/-- The threshold of a module. If it is not listed, `pick` makes it from the level of the logger and
that of the star. -/
inductive Threshold (pick : Level → Level → Level) (level : Level) (spec module : Bytes) :
    Level → Prop
  | listed {l : Level} (h : Listed spec module l) : Threshold pick level spec module l
  | starred {l : Level} (h : ∀ m, ¬Listed spec module m) (hs : LastAsks star (items spec) l) :
      Threshold pick level spec module (pick level l)
  | unlisted (h : ∀ m, ¬Listed spec module m) (hs : Unasked star (items spec)) :
      Threshold pick level spec module level

/-- An item is read as what it asks for. -/
theorem item_of_asks {name text : Bytes} {level : Level} (h : Asks name text level) :
    item text = (name, level) := by
  have plain (h : byte '=' ∉ name) : ∀ b ∈ name, decide (b ≠ byte '=') = true :=
    fun b hb => decide_eq_true fun e => h (e ▸ hb)
  unfold item
  cases h with
  | bare h => rw [List.dropWhile_eq_nil_iff.2 (plain h)]
  | stated h level =>
    rw [List.dropWhile_append_of_pos (plain h), List.takeWhile_append_of_pos (plain h),
      List.dropWhile_cons_of_neg (by simp), List.takeWhile_cons_of_neg (by simp), List.append_nil]

theorem Asks.unique {name name' text : Bytes} {l l' : Level} (h : Asks name text l)
    (h' : Asks name' text l') : name = name' ∧ l = l' :=
  Prod.mk.inj ((item_of_asks h).symm.trans (item_of_asks h'))

/-- Every text is an item for some name. -/
theorem exists_asks (text : Bytes) : ∃ name l, Asks name text l := by
  by_cases h : byte '=' ∈ text
  · obtain ⟨name, level, rfl, hname⟩ := List.eq_append_cons_of_mem h
    exact ⟨name, _, .stated hname level⟩
  · exact ⟨text, _, .bare h⟩

theorem LastAsks.not_unasked {name : Bytes} {texts : List Bytes} {l : Level}
    (h : LastAsks name texts l) : ¬Unasked name texts := by
  intro hu
  induction h with
  | here h _ => exact hu _ List.mem_cons_self _ h
  | later _ ih => exact ih fun t ht => hu t (List.mem_cons_of_mem _ ht)

theorem LastAsks.unique {name : Bytes} {texts : List Bytes} {l l' : Level}
    (h : LastAsks name texts l) (h' : LastAsks name texts l') : l = l' := by
  induction h with
  | here h hrest =>
    cases h' with
    | here h' _ => exact (h.unique h').2
    | later h' => exact absurd hrest h'.not_unasked
  | later h ih =>
    cases h' with
    | here _ hrest => exact absurd hrest h.not_unasked
    | later h' => exact ih h'

theorem exists_lastAsks (name : Bytes) (texts : List Bytes) :
    (∃ l, LastAsks name texts l) ∨ Unasked name texts := by
  induction texts with
  | nil => exact .inr fun _ ht => by cases ht
  | cons text rest ih =>
    rcases ih with ⟨l, h⟩ | hrest
    · exact .inl ⟨l, .later h⟩
    · by_cases h : ∃ l, Asks name text l
      · obtain ⟨l, h⟩ := h
        exact .inl ⟨l, .here h hrest⟩
      · refine .inr fun t ht l hl => ?_
        rcases List.mem_cons.1 ht with rfl | ht
        · exact h ⟨l, hl⟩
        · exact hrest t ht l hl

/-- A threshold for a module whose only change is the item that was read. -/
theorem add_of_asks {name text : Bytes} {l : Level} (h : Asks name text l) (f : Filter) :
    f.add text = if name = star then { f with fallback := l }
      else { f with modules := f.modules.insert name l } := by
  unfold add
  rw [item_of_asks h]
  rfl

/-- After the items of a list the last one with a name counts, and without one all is as before. -/
theorem foldl_add (texts : List Bytes) (f : Filter) :
    (∀ l, LastAsks star texts l → (texts.foldl add f).fallback = l) ∧
    (Unasked star texts → (texts.foldl add f).fallback = f.fallback) ∧
    (∀ m l, m ≠ star → LastAsks m texts l → (texts.foldl add f).modules.get? m = some l) ∧
    ∀ m, m = star ∨ Unasked m texts →
      (texts.foldl add f).modules.get? m = f.modules.get? m := by
  induction texts generalizing f with
  | nil =>
    have hnone (m : Bytes) (l : Level) : ¬LastAsks m [] l := fun h => nomatch h
    exact ⟨fun l h => absurd h (hnone _ l), fun _ => rfl, fun m l _ h => absurd h (hnone m l),
      fun _ _ => rfl⟩
  | cons text rest ih =>
    obtain ⟨name, l, hl⟩ := exists_asks text
    obtain ⟨hstar, hplain, hnamed, hother⟩ := ih (f.add text)
    have hadd := add_of_asks hl f
    have hrest {m : Bytes} (h : Unasked m (text :: rest)) : Unasked m rest :=
      fun t ht => h t (List.mem_cons_of_mem _ ht)
    rw [List.foldl_cons]
    refine ⟨fun k h => ?_, fun h => ?_, fun m k hm h => ?_, fun m h => ?_⟩
    · cases h with
      | later h => exact hstar k h
      | here h hu =>
        obtain ⟨rfl, rfl⟩ := hl.unique h
        rw [hplain hu, hadd, if_pos rfl]
    · have hne : name ≠ star := fun e => h text List.mem_cons_self l (e ▸ hl)
      rw [hplain (hrest h), hadd, if_neg hne]
    · cases h with
      | later h => exact hnamed m k hm h
      | here h hu =>
        obtain ⟨rfl, rfl⟩ := hl.unique h
        rw [hother name (.inr hu), hadd, if_neg hm]
        exact Table.get?_insert_self _ _ _
    · rw [hother m (h.imp_right hrest), hadd]
      split
      · rfl
      · rename_i hname
        refine Table.get?_insert_ne _ (fun e => ?_) _
        rcases h with h | h
        · exact hname (e ▸ h)
        · exact h text List.mem_cons_self l (e ▸ hl)

theorem rank_lowest_le_fallback (f : Filter) : f.lowest.rank ≤ f.fallback.rank := by
  unfold lowest
  generalize f.fallback = start
  induction f.modules.entries generalizing start with
  | nil => exact Nat.le_refl _
  | cons e rest ih =>
    have h := ih (start.lower e.2)
    rw [Level.rank_lower] at h
    exact Nat.le_trans h (Nat.min_le_left _ _)

theorem rank_lowest_le_of_get? {f : Filter} {module : Bytes} {l : Level}
    (h : f.modules.get? module = some l) : f.lowest.rank ≤ l.rank := by
  obtain ⟨before, after, he, -⟩ := List.lookup_eq_some_iff.1 h
  have hrest (start : Level) (es : List (Bytes × Level)) :
      (es.foldl (fun l e => l.lower e.2) start).rank ≤ start.rank :=
    rank_lowest_le_fallback ⟨start, ⟨es⟩⟩
  unfold lowest
  rw [he, List.foldl_append, List.foldl_cons]
  refine Nat.le_trans (hrest _ after) ?_
  rw [Level.rank_lower]
  exact Nat.min_le_right _ _

/-- No threshold is below the lowest one. -/
theorem rank_lowest_le_threshold (f : Filter) (module : Bytes) :
    f.lowest.rank ≤ (f.threshold module).rank := by
  unfold threshold
  cases h : f.modules.get? module with
  | none => exact f.rank_lowest_le_fallback
  | some l => exact rank_lowest_le_of_get? h

/-- A module that is not listed is the star, or no item names it. -/
theorem eq_star_or_unasked {spec module : Bytes} (h : ∀ m, ¬Listed spec module m) :
    module = star ∨ Unasked module (items spec) := by
  by_cases hm : module = star
  · exact .inl hm
  · rcases exists_lastAsks module (items spec) with ⟨l, hl⟩ | hu
    · exact absurd ⟨hm, hl⟩ (h l)
    · exact .inr hu

/-- The more talkative and the quieter reading of the star agree on a module exactly if it is listed
or the star asks for nothing else than the level of the logger. -/
theorem Threshold.eq_iff {level t t' : Level} {spec module : Bytes}
    (h : Threshold Level.lower level spec module t)
    (h' : Threshold Level.higher level spec module t') :
    t = t' ↔ (∃ m, Listed spec module m) ∨
      ∀ s, LastAsks star (items spec) s → s = level := by
  cases h with
  | listed h =>
    cases h' with
    | listed h' => exact ⟨fun _ => .inl ⟨_, h⟩, fun _ => h.2.unique h'.2⟩
    | starred h' _ => exact absurd h (h' _)
    | unlisted h' _ => exact absurd h (h' _)
  | @starred s h hs =>
    cases h' with
    | listed h' => exact absurd h' (h _)
    | unlisted _ hs' => exact absurd hs' hs.not_unasked
    | starred _ hs' =>
      rw [hs'.unique hs, Level.lower_eq_higher_iff]
      constructor
      · exact fun he => .inr fun s' hs' => (hs'.unique hs).trans he
      · rintro (⟨m, hm⟩ | hall)
        · exact absurd hm (h m)
        · exact hall s hs
  | unlisted h hs =>
    cases h' with
    | listed h' => exact absurd h' (h _)
    | starred _ hs' => exact absurd hs hs'.not_unasked
    | unlisted _ _ => exact ⟨fun _ => .inr fun s hs' => absurd hs hs'.not_unasked, fun _ => rfl⟩

/-- A specification that has only a star. -/
theorem threshold_of_star {pick : Level → Level → Level} {level s : Level}
    {spec text module : Bytes} (hi : items spec = [text]) (ha : Asks star text s)
    (hm : module ≠ star) : Threshold pick level spec module (pick level s) := by
  refine .starred (fun l hl => ?_) ?_
  · have h := hl.2
    rw [hi] at h
    cases h with
    | here h _ => exact hm (h.unique ha).1
    | later h => cases h
  · rw [hi]
    exact .here ha fun _ ht => by cases ht

/-- Every module has a threshold. -/
theorem exists_threshold (pick : Level → Level → Level) (level : Level) (spec module : Bytes) :
    ∃ l, Threshold pick level spec module l := by
  by_cases h : ∃ l, Listed spec module l
  · obtain ⟨l, h⟩ := h
    exact ⟨l, .listed h⟩
  · have h : ∀ m, ¬Listed spec module m := fun m hm => h ⟨m, hm⟩
    rcases exists_lastAsks star (items spec) with ⟨l, hs⟩ | hs
    · exact ⟨_, .starred h hs⟩
    · exact ⟨_, .unlisted h hs⟩

end Filter

namespace Gate

/-- The filter of a configured gate follows the specification; of the two levels for modules that
are not listed it takes the more talkative one. -/
theorem threshold_configured (level : Level) (spec module : Bytes) :
    Filter.Threshold Level.lower level spec module
      ((configured level spec).filter.threshold module) := by
  unfold configured
  by_cases hspec : spec = []
  · subst hspec
    exact .unlisted (fun _ h => by cases h.2) fun _ h => by cases h
  · rw [if_neg (by simpa using hspec)]
    obtain ⟨hstar, hplain, hnamed, hother⟩ :=
      Filter.foldl_add (Filter.items spec) { fallback := level }
    change Filter.Threshold Level.lower level spec module
      ((((Filter.items spec).foldl Filter.add { fallback := level }).modules.get? module).getD
        (((Filter.items spec).foldl Filter.add { fallback := level }).fallback.lower level))
    have hnone (h : ∀ m, ¬Filter.Listed spec module m) :
        ((Filter.items spec).foldl Filter.add { fallback := level }).modules.get? module = none :=
      hother module (Filter.eq_star_or_unasked h)
    obtain ⟨l, h⟩ := Filter.exists_threshold Level.lower level spec module
    cases h with
    | listed h =>
      rw [hnamed module _ h.1 h.2]
      exact .listed h
    | starred h hs =>
      rw [hnone h, hstar _ hs, Level.lower_comm]
      exact .starred h hs
    | unlisted h hs =>
      rw [hnone h, hplain hs, Option.getD_none, Level.lower_self]
      exact .unlisted h hs

/-- The level in front of the filter is no stricter than any threshold. -/
theorem rank_level_le_threshold (level : Level) (spec module : Bytes) :
    (configured level spec).level.rank ≤
      ((configured level spec).filter.threshold module).rank := by
  unfold configured
  split
  · exact Nat.le_refl _
  · exact Filter.rank_lowest_le_threshold _ module

theorem admits_configured_iff (level : Level) (spec : Bytes) (l : Level) (module : Bytes) :
    (configured level spec).admits l module = true ↔
      ((configured level spec).filter.threshold module).rank ≤ l.rank := by
  have hle := rank_level_le_threshold level spec module
  simp only [admits, Filter.admits, Level.passes, Bool.and_eq_true, decide_eq_true_eq]
  omega

end Gate

namespace Logger

theorem configure_gate (config : Config) (terminal : Terminal) (fs : FileSystem) :
    (configure config terminal fs).1.gate = Gate.configured config.level config.filterSpec := by
  unfold configure
  extract_lets gate console
  split
  · rfl
  · split <;> rfl

/-- What passes a configured logger. The threshold of a module that is listed is the one it is
listed with; else the star makes it more talkative than the level of the logger, and never quieter,
so that the quieter of the two is the threshold only if they are the same. The global level holds
back nothing that the filter admits. -/
theorem configure_admits (config : Config) (terminal : Terminal) (fs : FileSystem)
    (module : Bytes) :
    let gate := (configure config terminal fs).1.gate
    (∃ t, Filter.Threshold Level.lower config.level config.filterSpec module t ∧
      ∀ l, gate.admits l module = true ↔ t.rank ≤ l.rank) ∧
    (∀ t, Filter.Threshold Level.higher config.level config.filterSpec module t →
      ((∀ l, gate.admits l module = true ↔ t.rank ≤ l.rank) ↔
        (∃ m, Filter.Listed config.filterSpec module m) ∨
          ∀ s, Filter.LastAsks Filter.star (Filter.items config.filterSpec) s →
            s = config.level)) ∧
    ∀ l, gate.filter.admits l module = true → l.passes gate.level = true := by
  rw [configure_gate]
  have htrue := Gate.threshold_configured config.level config.filterSpec module
  have hle := Gate.rank_level_le_threshold config.level config.filterSpec module
  have hadmits := fun l => Gate.admits_configured_iff config.level config.filterSpec l module
  refine ⟨⟨_, htrue, hadmits⟩, fun t ht => ?_, fun l hl => ?_⟩
  · rw [← htrue.eq_iff ht]
    constructor
    · exact fun h => Level.eq_of_passes_iff fun l => (hadmits l).symm.trans (h l)
    · rintro rfl
      exact hadmits
  · have hl : ((Gate.configured config.level config.filterSpec).filter.threshold module).rank ≤
        l.rank := by simpa [Filter.admits, Level.passes] using hl
    simpa [Level.passes] using Nat.le_trans hle hl

def starConfig (spec : String) : Config := { filterSpec := utf8 spec }

def silentTerminal : Terminal := ⟨false, none⟩

/-- A star that asks for errors leaves the level at warnings, and one that asks for everything
lowers it, though in both cases the quieter level would hold the record back. -/
theorem configure_louder :
    let fs := FileSystem.bare (utf8 "/proj")
    let module := utf8 "presence"
    (Filter.Threshold Level.higher .warn (starConfig "*=error").filterSpec module .error ∧
      (configure (starConfig "*=error") silentTerminal fs).1.gate.admits .warn module = true ∧
      ¬Level.error.rank ≤ Level.warn.rank) ∧
    Filter.Threshold Level.higher .warn (starConfig "*=trace").filterSpec module .warn ∧
      (configure (starConfig "*=trace") silentTerminal fs).1.gate.admits .trace module = true ∧
      ¬Level.warn.rank ≤ Level.trace.rank := by
  have star (text : String) (s : Level) (hi : Filter.items (utf8 text) = [utf8 text])
      (ha : Filter.Asks Filter.star (utf8 text) s) :
      Filter.Threshold Level.higher .warn (starConfig text).filterSpec (utf8 "presence")
        (Level.higher .warn s) :=
    Filter.threshold_of_star hi ha (by decide)
  refine ⟨⟨?_, by decide +kernel, by decide⟩, ?_, by decide +kernel, by decide⟩
  · exact star "*=error" .error (by decide +kernel)
      (@Filter.Asks.stated Filter.star (by decide) (utf8 "error"))
  · exact star "*=trace" .trace (by decide +kernel)
      (@Filter.Asks.stated Filter.star (by decide) (utf8 "trace"))

end Logger

end JsxPresence.Log
