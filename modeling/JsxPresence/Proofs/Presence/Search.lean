import JsxPresence.Proofs.Presence.Lockstep

namespace JsxPresence

namespace Presence

open Session Reference

variable {env : Environment} {base s t : Session} {target : Target}

/-- A usage of a file means a component that another file of the project defines. -/
def LeadsTo (env : Environment) (base : Session) (file : ParsedFile) (u : Usage) (g : Bytes) :
    Prop :=
  ∃ id, (usage env file u.path base).1 = some id ∧ id.external = false ∧
    Path.same id.file file.path = false ∧ id.file = g

theorem not_leadsTo_of_none {file : ParsedFile} {u : Usage} {g : Bytes}
    (hid : (usage env file u.path base).1 = none) : ¬LeadsTo env base file u g := by
  rintro ⟨id, hid', -⟩
  rw [hid] at hid'
  cases hid'

/-- A usage that means a component leads to the file of that component only, if it is another
one. -/
theorem leadsTo_iff {file : ParsedFile} {u : Usage} {id : ComponentId} {g : Bytes}
    (hid : (usage env file u.path base).1 = some id) :
    LeadsTo env base file u g ↔
      (id.external || Path.same id.file file.path) = false ∧ id.file = g := by
  unfold LeadsTo
  simp only [hid, Option.some.injEq, exists_eq_left', Bool.or_eq_false_iff, and_assoc]

/-- One step of the search: a file renders a component that another file defines. -/
def Successor (env : Environment) (base : Session) (f g : Bytes) : Prop :=
  ∃ file, (load env f base).1 = .ok file ∧
    ∃ u ∈ (Symbols.ofOutline file.outline).usages, LeadsTo env base file u g

/-- The target is rendered in the file itself. -/
def Hit (env : Environment) (base : Session) (target : Target) (f : Bytes) : Prop :=
  ∃ file, (load env f base).1 = .ok file ∧ (isDirect env file target base).1 = true

/-- A hit is at most so many steps away. -/
def Near (env : Environment) (base : Session) (target : Target) : Nat → Bytes → Prop
  | 0, f => Hit env base target f
  | k + 1, f => Hit env base target f ∨ ∃ g, Successor env base f g ∧ Near env base target k g

theorem Near.of_hit {k : Nat} {f : Bytes} (h : Hit env base target f) : Near env base target k f := by
  cases k with
  | zero => exact h
  | succ k => exact .inl h

theorem Near.mono {j k : Nat} (hjk : j ≤ k) {f : Bytes} (h : Near env base target j f) :
    Near env base target k f := by
  induction j generalizing k f with
  | zero => exact .of_hit h
  | succ j ih =>
    cases k with
    | zero => omega
    | succ k =>
      rcases h with h | ⟨g, hg, hn⟩
      · exact .inl h
      · exact .inr ⟨g, hg, ih (by omega) hn⟩

/-- No hit is any number of steps away. -/
def Far (env : Environment) (base : Session) (target : Target) (f : Bytes) : Prop :=
  ∀ k, ¬Near env base target k f

theorem far_of_successors {f : Bytes} (hh : ¬Hit env base target f)
    (h : ∀ g, Successor env base f g → Far env base target g) : Far env base target f := by
  intro k hk
  cases k with
  | zero => exact hh hk
  | succ k =>
    rcases hk with hk | ⟨g, hg, hn⟩
    · exact hh hk
    · exact h g hg k hn

theorem far_of_error {f message : Bytes} (h : (load env f base).1 = .error message) :
    Far env base target f := by
  refine far_of_successors ?_ ?_
  · rintro ⟨file, hf, -⟩
    rw [h] at hf
    cases hf
  · rintro g ⟨file, hf, -⟩
    rw [h] at hf
    cases hf

/-- For one target, the key of a question tells its file. -/
theorem Target.key_inj {a b : Bytes} (h : target.key a = target.key b) : a = b := by
  unfold Target.key at h
  exact List.append_cancel_right (List.append_cancel_right h)

/-- Whether a file renders the target itself does not depend on what was asked before. -/
theorem isDirect_settled (h : Stable env base) {file : ParsedFile}
    (hf : base.library env file.path = .ok file) (target : Target) :
    Settled env base (isDirect env file target) :=
  h.settled fun verdicts active =>
    isDirect_lockstep (together_meanings h verdicts active) ⟨rfl, hf⟩ target

/-- The region is left by no step of the search. -/
def Closed (env : Environment) (base : Session) (region : Bytes → Prop) : Prop :=
  ∀ f g, region f → Successor env base f g → region g

/-- No answer `true` is kept for the target in the region, and `false` only where there is nothing
to find at any depth. -/
def Tidy (env : Environment) (base : Session) (target : Target) (region : Bytes → Prop)
    (s : Session) : Prop :=
  ∀ f, region f → ∀ found, s.verdicts.get? (target.key f) = some found →
    found = false ∧ Far env base target f

/-- What an answer `true` stands for: where it may be kept, and what it tells of a file that is
searched with a number of steps. -/
structure Warrant (env : Environment) (base : Session) (target : Target) where
  kept : Bytes → Prop
  found : Nat → Bytes → Prop
  of_hit : ∀ {n f}, Hit env base target f → found (n + 1) f
  of_successor : ∀ {n f g}, Successor env base f g → found n g → found (n + 1) f
  of_kept : ∀ {n f}, kept f → found (n + 1) f

/-- What is found may be kept. -/
def Warrant.Lasting (w : Warrant env base target) : Prop := ∀ n f, w.found n f → w.kept f

/-- No answer `true` is kept, so a hit is within the steps that the search has. -/
def Warrant.exact (env : Environment) (base : Session) (target : Target) :
    Warrant env base target where
  kept _ := False
  found n f := 0 < n ∧ Near env base target (n - 1) f
  of_hit h := ⟨Nat.succ_pos _, .of_hit h⟩
  of_successor {n f g} hg h := by
    obtain ⟨k, rfl⟩ : ∃ k, n = k + 1 := ⟨n - 1, by omega⟩
    exact ⟨Nat.succ_pos _, .inr ⟨g, hg, h.2⟩⟩
  of_kept h := h.elim

/-- Kept answers about the target in the region are right: `true` where it may be kept, and `false`
where there is nothing to find at any depth. -/
def Warranted (w : Warrant env base target) (region : Bytes → Prop) (s : Session) : Prop :=
  ∀ f, region f → ∀ found, s.verdicts.get? (target.key f) = some found →
    (found = true → w.kept f) ∧ (found = false → Far env base target f)

theorem warranted_exact_iff {region : Bytes → Prop} :
    Warranted (.exact env base target) region s ↔ Tidy env base target region s := by
  constructor
  · intro h f hr found hget
    cases found with
    | true => exact ((h f hr true hget).1 rfl).elim
    | false => exact ⟨rfl, (h f hr false hget).2 rfl⟩
  · intro h f hr found hget
    obtain ⟨rfl, hfar⟩ := h f hr found hget
    exact ⟨fun hx => (by cases hx), fun _ => hfar⟩

variable {w : Warrant env base target}

/-- If no hit is `k` steps away from the files whose questions are being asked, none is from `f`, for
every `k` within the bound. -/
def Missed (env : Environment) (base : Session) (target : Target) (region : Bytes → Prop)
    (active : List Bytes) (steps : Nat) (f : Bytes) : Prop :=
  ∀ k < steps, (∀ a, region a → target.key a ∈ active → ¬Near env base target k a) →
    ¬Near env base target k f

/-- What a search that starts from `s` leaves behind besides its outcome: a session that follows the
project, with the same questions being asked, and with kept answers about the target in the region
only. -/
structure Leaves (env : Environment) (base : Session) (target : Target) (region : Bytes → Prop)
    (s t : Session) : Prop where
  follows : Follows env base t
  active : t.active = s.active
  elsewhere : ∀ key, (∀ f, region f → key ≠ target.key f) →
    t.verdicts.get? key = s.verdicts.get? key

theorem Leaves.trans {region : Bytes → Prop} {u : Session} (h : Leaves env base target region s t)
    (k : Leaves env base target region t u) : Leaves env base target region s u :=
  ⟨k.follows, k.active.trans h.active, fun key hk =>
    (k.elsewhere key hk).trans (h.elsewhere key hk)⟩

theorem Leaves.refl {region : Bytes → Prop} (h : Follows env base s) :
    Leaves env base target region s s := ⟨h, rfl, fun _ _ => rfl⟩

/-- The outcome of a search with so many steps, and the session after it. -/
structure Searched (w : Warrant env base target) (region : Bytes → Prop) (steps : Nat) (f : Bytes)
    (s : Session) (x : Outcome × Session) : Prop extends Leaves env base target region s x.2 where
  found : x.1.found = true → w.found steps f ∧ x.2.verdicts.get? (target.key f) = some true
  warranted : (x.1.found = true → w.Lasting) → Warranted w region x.2
  uncut : x.1.found = false → x.1.cut = false → Far env base target f
  missed : x.1.found = false → Missed env base target region s.active steps f

/-- A search that is cut off where it starts. -/
theorem searched_cut {region : Bytes → Prop} {steps : Nat} {f : Bytes} {t : Session}
    (hl : Leaves env base target region s t) (ht : t.verdicts = s.verdicts)
    (hs : Warranted w region s)
    (hm : Missed env base target region s.active steps f) :
    Searched w region steps f s (⟨false, true⟩, t) where
  toLeaves := hl
  found h := by cases h
  warranted _ := by
    unfold Warranted
    rw [ht]
    exact hs
  uncut _ h := by cases h
  missed _ := hm

theorem Far.missed {region : Bytes → Prop} {f : Bytes} (h : Far env base target f)
    (active : List Bytes) (steps : Nat) : Missed env base target region active steps f :=
  fun k _ _ => h k

/-- What the search through the usages of a file comes to. -/
structure SearchedUsages (w : Warrant env base target) (region : Bytes → Prop) (steps : Nat)
    (file : ParsedFile) (seen : List Bytes) (cut : Bool) (usages : List Usage) (s : Session)
    (x : Outcome × Session) : Prop extends Leaves env base target region s x.2 where
  found : x.1.found = true → ∃ u ∈ usages, ∃ g, LeadsTo env base file u g ∧ w.found steps g
  warranted : (x.1.found = true → w.Lasting) → Warranted w region x.2
  uncut : x.1.found = false → x.1.cut = false → cut = false ∧
    ∀ u ∈ usages, u.fullName ∉ seen → ∀ g, LeadsTo env base file u g → Far env base target g
  missed : x.1.found = false → ∀ u ∈ usages, u.fullName ∉ seen → ∀ g, LeadsTo env base file u g →
    Missed env base target region s.active steps g

/-- Goes on to the rest of the usages when the first one has been dealt with. -/
theorem SearchedUsages.cons {region : Bytes → Prop} {steps : Nat} {file : ParsedFile}
    {seen : List Bytes} {cut cut' : Bool} {u : Usage} {rest : List Usage} {x : Outcome × Session}
    (hspelled : ∀ v ∈ u :: rest, Name.Spelled v.path)
    (h : SearchedUsages w region steps file (u.fullName :: seen) cut' rest t x)
    (hl : Leaves env base target region s t)
    (huncut : cut' = false → cut = false ∧ ∀ g, LeadsTo env base file u g → Far env base target g)
    (hmissed : ∀ g, LeadsTo env base file u g →
      Missed env base target region s.active steps g) :
    SearchedUsages w region steps file seen cut (u :: rest) s x := by
  have later {P : Bytes → Prop} (hu : ∀ g, LeadsTo env base file u g → P g)
      (hrest : ∀ v ∈ rest, v.fullName ∉ u.fullName :: seen → ∀ g, LeadsTo env base file v g → P g) :
      ∀ v ∈ u :: rest, v.fullName ∉ seen → ∀ g, LeadsTo env base file v g → P g := by
    intro v hv hn g hg
    rcases List.mem_cons.1 hv with rfl | hv'
    · exact hu g hg
    by_cases hname : v.fullName = u.fullName
    · have hpath : v.path = u.path := by
        rw [← (hspelled v hv).split_join, ← (hspelled u List.mem_cons_self).split_join]
        exact congrArg Name.split hname
      obtain ⟨id, hid, hrest⟩ := hg
      exact hu g ⟨id, hpath ▸ hid, hrest⟩
    · exact hrest v hv' (by simp [hname, hn]) g hg
  refine ⟨hl.trans h.toLeaves, fun hx => ?_, h.warranted, fun hx hcut => ?_, fun hx => ?_⟩
  · obtain ⟨v, hv, hg⟩ := h.found hx
    exact ⟨v, List.mem_cons_of_mem _ hv, hg⟩
  · obtain ⟨hcut', hall⟩ := h.uncut hx hcut
    obtain ⟨hcut, hu⟩ := huncut hcut'
    exact ⟨hcut, later hu hall⟩
  · refine later hmissed ?_
    rw [← hl.active]
    exact h.missed hx

/-- Passes over a usage whose name was met before. -/
theorem SearchedUsages.skip {region : Bytes → Prop} {steps : Nat} {file : ParsedFile}
    {seen : List Bytes} {cut : Bool} {u : Usage} {rest : List Usage} {x : Outcome × Session}
    (h : SearchedUsages w region steps file seen cut rest s x) (hseen : u.fullName ∈ seen) :
    SearchedUsages w region steps file seen cut (u :: rest) s x := by
  have others {P : Bytes → Prop}
      (hrest : ∀ v ∈ rest, v.fullName ∉ seen → ∀ g, LeadsTo env base file v g → P g) :
      ∀ v ∈ u :: rest, v.fullName ∉ seen → ∀ g, LeadsTo env base file v g → P g := by
    intro v hv hn
    rcases List.mem_cons.1 hv with rfl | hv
    · exact absurd hseen hn
    · exact hrest v hv hn
  refine ⟨h.toLeaves, fun hx => ?_, h.warranted, fun hx hcut => ?_, fun hx => others (h.missed hx)⟩
  · obtain ⟨v, hv, hg⟩ := h.found hx
    exact ⟨v, List.mem_cons_of_mem _ hv, hg⟩
  · obtain ⟨hcut, hall⟩ := h.uncut hx hcut
    exact ⟨hcut, others hall⟩

/-- The search ends at a usage that leads to a file below which there is a hit. -/
theorem SearchedUsages.ended {region : Bytes → Prop} {steps : Nat} {file : ParsedFile}
    {seen : List Bytes} {cut cut' : Bool} {u : Usage} {rest : List Usage} {g : Bytes}
    (hl : Leaves env base target region s t) (hu : LeadsTo env base file u g)
    (hfound : w.found steps g) (hwarranted : w.Lasting → Warranted w region t) :
    SearchedUsages w region steps file seen cut (u :: rest) s (⟨true, cut'⟩, t) where
  toLeaves := hl
  found _ := ⟨u, List.mem_cons_self, g, hu, hfound⟩
  warranted hlast := hwarranted (hlast rfl)
  uncut h := by cases h
  missed h := by cases h

theorem Warranted.of_eq {region : Bytes → Prop} (h : Warranted w region s)
    (ht : t.verdicts = s.verdicts) : Warranted w region t := by
  unfold Warranted
  rw [ht]
  exact h

theorem searchUsages_spec (h : Stable env base) {region : Bytes → Prop}
    (hclosed : Closed env base region) {search : Bytes → SessionM Outcome} {steps : Nat}
    (hsearch : ∀ f s, region f → Follows env base s → Warranted w region s →
      Searched w region steps f s (search f s))
    {file : ParsedFile} (hf : base.library env file.path = .ok file) (hr : region file.path)
    {usages : List Usage} (hsub : ∀ u ∈ usages, u ∈ (Symbols.ofOutline file.outline).usages)
    (seen : List Bytes) (cut : Bool) {s : Session} (hs : Follows env base s)
    (ht : Warranted w region s) :
    SearchedUsages w region steps file seen cut usages s
      (searchUsages env search file seen cut usages s) := by
  induction usages generalizing seen cut s with
  | nil =>
    refine ⟨.refl hs, fun hx => (by cases hx), fun _ => ht, fun _ hcut => ⟨hcut, ?_⟩, fun _ => ?_⟩
    · intro u hu
      cases hu
    · intro u hu
      cases hu
  | cons u rest ih =>
    replace ih := @ih fun v hv => hsub v (List.mem_cons_of_mem _ hv)
    have hread := (h.proper hf).2
    have hspelled : ∀ v ∈ u :: rest, Name.Spelled v.path := fun v hv =>
      Usage.spelled hread (hsub v hv)
    unfold searchUsages
    by_cases hseen : seen.contains u.fullName = true
    · rw [if_pos hseen]
      exact (ih seen cut hs ht).skip (by simpa using hseen)
    rw [if_neg hseen, SessionM.bind_apply]
    obtain ⟨h1, h2, h3, h4⟩ := h.usage hf (hspelled u List.mem_cons_self) s hs
    rw [h1]
    have hl : Leaves env base target region s (usage env file u.path s).2 :=
      ⟨h2, h4, fun key _ => by rw [h3]⟩
    have ht1 := ht.of_eq h3
    have pass (hno : ∀ g, ¬LeadsTo env base file u g) :
        SearchedUsages w region steps file seen cut (u :: rest) s
          (searchUsages env search file (u.fullName :: seen) cut rest
            (usage env file u.path s).2) :=
      (ih _ cut h2 ht1).cons hspelled hl (fun hcut => ⟨hcut, fun g hg => absurd hg (hno g)⟩)
        fun g hg => absurd hg (hno g)
    cases hid : (usage env file u.path base).1 with
    | none => exact pass fun g => not_leadsTo_of_none hid
    | some id =>
      dsimp only
      by_cases hown : (id.external || Path.same id.file file.path) = true
      · rw [if_pos hown]
        exact pass fun g hg => absurd (hown.symm.trans ((leadsTo_iff hid).1 hg).1) (by decide)
      rw [if_neg hown]
      have hleads : LeadsTo env base file u id.file :=
        (leadsTo_iff hid).2 ⟨Bool.eq_false_iff.2 hown, rfl⟩
      have hsucc : Successor env base file.path id.file :=
        ⟨file, by rw [load_base, hf], u, hsub u List.mem_cons_self, hleads⟩
      have only {P : Bytes → Prop} (hP : P id.file) : ∀ g, LeadsTo env base file u g → P g :=
        fun g hg => ((leadsTo_iff hid).1 hg).2 ▸ hP
      simp only [SessionM.bind_apply]
      generalize hnote : (note .trace (utf8 "presence") (utf8 "<" ++ u.fullName ++
        utf8 "> in " ++ file.path ++ utf8 " -> " ++ id.file) (usage env file u.path s).2).2 = s2
      have hq : Quiet env (usage env file u.path s).2 s2 := hnote ▸ note_quiet env _ _ _ _
      have hb := hsearch id.file s2 (hclosed _ _ hr hsucc) (h2.of_quiet hq)
        (ht1.of_eq hq.verdicts)
      have hl2 : Leaves env base target region s s2 :=
        ⟨h2.of_quiet hq, hq.active.trans h4, fun key _ => by rw [hq.verdicts, h3]⟩
      have hl3 := hl2.trans hb.toLeaves
      by_cases hfound : (search id.file s2).1.found = true
      · rw [if_pos hfound]
        exact .ended hl3 hleads (hb.found hfound).1 fun hlast => hb.warranted fun _ => hlast
      rw [if_neg hfound]
      have hfound : (search id.file s2).1.found = false := by simpa using hfound
      have hmissed := hb.missed hfound
      rw [hl2.active] at hmissed
      have hw := hb.warranted fun hx => absurd (hfound ▸ hx) (by decide)
      refine (ih _ _ hb.follows hw).cons hspelled hl3 (fun hcut => ?_) (only hmissed)
      obtain ⟨hcut, hbelow⟩ := Bool.or_eq_false_iff.1 hcut
      exact ⟨hcut, only (hb.uncut hfound hbelow)⟩

/-- A file is missed if all its successors are, while the question about it is being asked: a
shortest way to a hit does not come back to where it starts. -/
theorem missed_of_successors {region : Bytes → Prop} {active : List Bytes} {steps : Nat} {f : Bytes}
    (hh : ¬Hit env base target f)
    (h : ∀ g, Successor env base f g →
      Missed env base target region (target.key f :: active) steps g) :
    Missed env base target region active (steps + 1) f := by
  intro k hk hactive
  have hall : ∀ j ≤ k, ¬Near env base target j f := by
    intro j
    induction j with
    | zero => exact fun _ hn => hh hn
    | succ j ih =>
      rintro hj (hn | ⟨g, hg, hn⟩)
      · exact hh hn
      · refine h g hg j (by omega) (fun a ha hm hna => ?_) hn
        rcases List.mem_cons.1 hm with heq | hm
        · exact ih (by omega) (Target.key_inj heq ▸ hna)
        · exact hactive a ha hm (hna.mono (by omega))
  exact hall k (le_refl _)

/-- The session after an answer for a file of the region is kept. -/
theorem Leaves.keep {region : Bytes → Prop} {f : Bytes} (h : Leaves env base target region s t)
    (hr : region f) (found : Bool) :
    Leaves env base target region s
      { t with verdicts := t.verdicts.insert (target.key f) found } where
  follows := ⟨h.follows.library, h.follows.resolved, h.follows.symbols, h.follows.usages⟩
  active := h.active
  elsewhere key hk := by
    rw [← h.elsewhere key hk]
    exact Table.get?_insert_ne _ (hk f hr) found

theorem Warranted.keep {region : Bytes → Prop} {f : Bytes} (h : Warranted w region t)
    {found : Bool} (hyes : found = true → w.kept f)
    (hno : found = false → Far env base target f) :
    Warranted w region { t with verdicts := t.verdicts.insert (target.key f) found } := by
  intro a ha answer hget
  change (t.verdicts.insert (target.key f) found).get? (target.key a) = some answer at hget
  by_cases hk : target.key a = target.key f
  · rw [hk, Table.get?_insert_self] at hget
    cases hget
    exact Target.key_inj hk ▸ ⟨hyes, hno⟩
  · rw [Table.get?_insert_ne _ hk] at hget
    exact h a ha answer hget

/-- What is left to do when the usages of a file are searched or it is a hit itself: the question is
no longer being asked, and its answer is kept unless a cut may have changed it. -/
def conclude (key : Bytes) (outcome : Outcome) : SessionM Outcome := do
  modify fun s => { s with active := s.active.erase key }
  if outcome.found || !outcome.cut then
    modify fun s => { s with verdicts := s.verdicts.insert key outcome.found }
  return outcome

theorem conclude_searched {region : Bytes → Prop} {steps : Nat} {f : Bytes} {t : Session}
    {outcome : Outcome} (hr : region f) (ht : Follows env base t)
    (hactive : t.active = target.key f :: s.active)
    (helse : ∀ key, (∀ a, region a → key ≠ target.key a) →
      t.verdicts.get? key = s.verdicts.get? key)
    (hfound : outcome.found = true → w.found (steps + 1) f)
    (hkept : (outcome.found = true → w.Lasting) → Warranted w region t)
    (huncut : outcome.found = false → outcome.cut = false → Far env base target f)
    (hmissed : outcome.found = false → Missed env base target region s.active (steps + 1) f) :
    Searched w region (steps + 1) f s (conclude (target.key f) outcome t) := by
  have hl : Leaves env base target region s { t with active := t.active.erase (target.key f) } :=
    ⟨⟨ht.library, ht.resolved, ht.symbols, ht.usages⟩, by simp [hactive], helse⟩
  obtain ⟨found, cut⟩ := outcome
  cases found with
  | true =>
    refine ⟨hl.keep hr true, fun _ => ⟨hfound rfl, ?_⟩, fun hlast => ?_,
      fun hx => (by cases hx), fun hx => (by cases hx)⟩
    · exact Table.get?_insert_self _ _ _
    · have hw := hkept hlast
      exact Warranted.keep (t := { t with active := t.active.erase (target.key f) }) hw
        (fun _ => hlast rfl _ f (hfound rfl)) fun hx => (by cases hx)
  | false =>
    have hw := hkept fun hx => (by cases hx)
    cases cut with
    | true =>
      exact ⟨hl, fun hx => (by cases hx), fun _ => hw, fun _ hx => (by cases hx),
        fun _ => hmissed rfl⟩
    | false =>
      have hfar := huncut rfl rfl
      refine ⟨hl.keep hr false, fun hx => (by cases hx), fun _ => ?_, fun _ _ => hfar,
        fun _ => hmissed rfl⟩
      exact Warranted.keep (t := { t with active := t.active.erase (target.key f) }) hw
        (fun hx => (by cases hx)) fun _ => hfar

theorem searchFile_apply (search : Bytes → SessionM Outcome) (file : ParsedFile) (key : Bytes)
    (s : Session) :
    searchFile env search file target key s =
      let s1 := (note .trace (utf8 "presence") (file.path ++ utf8 " renders " ++
        joinNames (symbolsOf file s).1.components) (symbolsOf file s).2).2
      let direct := isDirect env file target { s1 with active := key :: s1.active }
      if direct.1 then conclude key ⟨true, false⟩ direct.2
      else
        let x := searchUsages env search file [] false (symbolsOf file s).1.usages direct.2
        conclude key x.1 x.2 := by
  unfold searchFile
  simp only [SessionM.bind_apply, SessionM.modify_apply]
  split <;> rfl

theorem searchFile_spec (h : Stable env base) {region : Bytes → Prop}
    (hclosed : Closed env base region) {search : Bytes → SessionM Outcome} {steps : Nat}
    (hsearch : ∀ f s, region f → Follows env base s → Warranted w region s →
      Searched w region steps f s (search f s))
    {file : ParsedFile} (hf : base.library env file.path = .ok file) (hr : region file.path)
    (hs : Follows env base s) (ht : Warranted w region s) :
    Searched w region (steps + 1) file.path s
      (searchFile env search file target (target.key file.path) s) := by
  have hload : (load env file.path base).1 = .ok file := by rw [load_base, hf]
  rw [searchFile_apply]
  obtain ⟨h1, h2, h3, h4⟩ := symbolsOf_gives hf s hs
  rw [h1]
  dsimp only
  generalize hnote : (note .trace (utf8 "presence") (file.path ++ utf8 " renders " ++
    joinNames (Symbols.ofOutline file.outline).components) (symbolsOf file s).2).2 = s1
  have hq : Quiet env (symbolsOf file s).2 s1 := hnote ▸ note_quiet env _ _ _ _
  have hf1 := h2.of_quiet hq
  generalize hpush : ({ s1 with active := target.key file.path :: s1.active } : Session) = s2
  have hf2 : Follows env base s2 :=
    hpush ▸ ⟨hf1.library, hf1.resolved, hf1.symbols, hf1.usages⟩
  have hv2 : s2.verdicts = s.verdicts := by
    rw [← hpush]
    exact hq.verdicts.trans h3
  have ha2 : s2.active = target.key file.path :: s.active := by
    rw [← hpush, ← h4, ← hq.active]
  obtain ⟨k1, k2, k3, k4⟩ := isDirect_settled h hf target s2 hf2
  rw [k1]
  have ha3 := k4.trans ha2
  have hv3 := k3.trans hv2
  by_cases hdirect : (isDirect env file target base).1 = true
  · rw [if_pos hdirect]
    exact conclude_searched hr k2 ha3 (fun key _ => by rw [hv3])
      (fun _ => w.of_hit ⟨file, hload, hdirect⟩) (fun _ => ht.of_eq hv3) (fun hx => (by cases hx))
      (fun hx => (by cases hx))
  · rw [if_neg hdirect]
    have hx := searchUsages_spec h hclosed hsearch hf hr (fun u hu => hu) [] false k2
      (ht.of_eq hv3)
    have hhit : ¬Hit env base target file.path := by
      rintro ⟨file', hf', hd⟩
      rw [hload] at hf'
      cases hf'
      exact hdirect hd
    have each {P : Bytes → Prop} (hP : ∀ u ∈ (Symbols.ofOutline file.outline).usages,
        u.fullName ∉ ([] : List Bytes) → ∀ g, LeadsTo env base file u g → P g) :
        ∀ g, Successor env base file.path g → P g := by
      rintro g ⟨file', hf', u, hu, hg⟩
      rw [hload] at hf'
      cases hf'
      exact hP u hu (by simp) g hg
    refine conclude_searched hr hx.follows (hx.active.trans ha3)
      (fun key hk => by rw [hx.elsewhere key hk, hv3]) (fun hfound => ?_) hx.warranted
      (fun hfound hcut => far_of_successors hhit (each (hx.uncut hfound hcut).2))
      fun hfound => ?_
    · obtain ⟨u, hu, g, hg, hnear⟩ := hx.found hfound
      exact w.of_successor ⟨file, hload, u, hu, hg⟩ hnear
    · refine missed_of_successors hhit (each ?_)
      have hm := hx.missed hfound
      rwa [ha3] at hm

/-- A file that is come to for the first time; there is nothing to find below one that cannot be
read. -/
theorem visit_spec (h : Stable env base) {region : Bytes → Prop}
    (hclosed : Closed env base region) {search : Bytes → SessionM Outcome} {steps : Nat}
    (hsearch : ∀ f s, region f → Follows env base s → Warranted w region s →
      Searched w region steps f s (search f s))
    {f : Bytes} (hr : region f) (hs : Follows env base s) (ht : Warranted w region s) :
    Searched w region (steps + 1) f s (visit env search f target (target.key f) s) := by
  unfold visit
  simp only [SessionM.bind_apply, SessionM.modify_apply]
  generalize hvisit : ({ s with visits := s.visits + 1 } : Session) = s1
  have hq : Quiet env s s1 := hvisit ▸ ⟨rfl, rfl, rfl, rfl, rfl, rfl⟩
  obtain ⟨h1, h2, h3, h4⟩ := h.load f s1 (hs.of_quiet hq)
  rw [h1]
  have hv := h3.trans hq.verdicts
  have ha := h4.trans hq.active
  have hl : Leaves env base target region s (load env f s1).2 :=
    ⟨h2, ha, fun key _ => by rw [hv]⟩
  cases hload : (load env f base).1 with
  | error message =>
    have hfar : Far env base target f := far_of_error hload
    have hl' : Leaves env base target region s (diagnose .unparseable f message
        (note .debug (utf8 "presence") (utf8 "skipping " ++ f ++ utf8 ": " ++ message)
          (load env f s1).2).2).2 :=
      ⟨h2.of_quiet ⟨rfl, rfl, rfl, rfl, rfl, rfl⟩, ha, fun key _ => by rw [← hv]; rfl⟩
    exact ⟨hl'.keep hr false, fun hx => (by cases hx),
      fun _ => Warranted.keep (ht.of_eq hv) (fun hx => (by cases hx)) fun _ => hfar,
      fun _ _ => hfar, fun _ => hfar.missed _ _⟩
  | ok file =>
    have hf := h.library_path hload
    have hpath : file.path = f := (h.proper (by rw [← load_base, hload])).1
    subst hpath
    have hx := searchFile_spec h hclosed hsearch hf hr h2 (ht.of_eq hv)
    refine ⟨hl.trans hx.toLeaves, hx.found, hx.warranted, hx.uncut, fun hfound => ?_⟩
    rw [← ha]
    exact hx.missed hfound

/-- A search from a session that follows the project and keeps right answers: what it finds is
warranted, and what it misses is not near. -/
theorem search_spec (h : Stable env base) {region : Bytes → Prop} (hclosed : Closed env base region)
    (steps : Nat) (f : Bytes) (s : Session) (hr : region f) (hs : Follows env base s)
    (ht : Warranted w region s) :
    Searched w region steps f s (search env target steps f s) := by
  induction steps generalizing f s with
  | zero =>
    have hq : Quiet env s (search env target 0 f s).2 := ⟨rfl, rfl, rfl, rfl, rfl, rfl⟩
    exact searched_cut ⟨hs.of_quiet hq, rfl, fun _ _ => rfl⟩ rfl ht fun k hk => absurd hk (by omega)
  | succ steps ih =>
    by_cases hbusy : s.active.contains (target.key f) = true
    · rw [search_of_active hbusy]
      have hm : target.key f ∈ s.active := by simpa using hbusy
      refine searched_cut ⟨hs.of_quiet ⟨rfl, rfl, rfl, rfl, rfl, rfl⟩, rfl, fun _ _ => rfl⟩ rfl ht ?_
      exact fun k _ hactive => hactive f hr hm
    · cases hget : s.verdicts.get? (target.key f) with
      | some found =>
        obtain ⟨hyes, hno⟩ := ht f hr found hget
        rw [search_of_kept hbusy hget]
        exact ⟨.refl hs, fun hx => ⟨w.of_kept (hyes hx), hx ▸ hget⟩, fun _ => ht,
          fun hx _ => hno hx, fun hx => (hno hx).missed _ _⟩
      | none =>
        rw [search_of_new hbusy hget]
        exact visit_spec h hclosed ih hr hs ht

end Presence

end JsxPresence
