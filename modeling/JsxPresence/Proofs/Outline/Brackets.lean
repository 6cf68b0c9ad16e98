import JsxPresence.Token

namespace JsxPresence.Kind

/-- What is open behind a token, innermost first: a bracket is kept as what closes it, a
substitution as the last part of its template. There is nothing if the token does not fit what is
open. -/
def nest (opened : List Kind) (kind : Kind) : Option (List Kind) :=
  if kind.isOpener then some (kind.closer :: opened)
  else if kind = .templateHead then some (.templateTail :: opened)
  else if kind.isCloser || kind = .templateTail then
    if opened.head? = some kind then some opened.tail else none
  else if kind = .templateMiddle then
    if opened.head? = some .templateTail then some opened else none
  else some opened

/-- Brackets and substitutions are closed in turn, each by its own kind, and all of them are. -/
def Balanced (kinds : List Kind) : Prop := kinds.foldlM nest [] = some []

instance (kinds : List Kind) : Decidable (Balanced kinds) := inferInstanceAs (Decidable (_ = _))

/-- Takes all brackets for braces. -/
def blurred : Kind → Kind
  | openParen | openBracket => openBrace
  | closeParen | closeBracket => closeBrace
  | kind => kind

/-- What brackets are open behind a token, substitutions left aside. With `strays`, a closing
bracket is let pass where nothing is open. -/
def settle (strays : Bool) (opened : List Kind) (kind : Kind) : Option (List Kind) :=
  if kind.isOpener then some (kind.closer :: opened)
  else if kind.isCloser then
    if opened.head? = some kind then some opened.tail
    else if strays && opened.isEmpty then some []
    else none
  else some opened

/-- Brackets are closed in turn, each by its own kind, and all of them are, substitutions left
aside. -/
def Settled (strays : Bool) (kinds : List Kind) : Prop := kinds.foldlM (settle strays) [] = some []

instance (strays : Bool) (kinds : List Kind) : Decidable (Settled strays kinds) :=
  inferInstanceAs (Decidable (_ = _))

/-- A `<` stands behind a colon as in a type annotation: the brackets between them are closed. -/
def Annotates (kinds : List Kind) : Prop :=
  ∃ front between rest,
    kinds = front ++ colon :: (between ++ less :: rest) ∧ Settled false between

/-- The parts of a template around its substitutions. -/
def isPart : Kind → Bool
  | templateHead | templateMiddle | templateTail => true
  | _ => false

section Cases

variable {strays : Bool} {opened after : List Kind} {kind : Kind}

theorem isOpener_blurred (kind : Kind) : kind.blurred.isOpener = kind.isOpener := by
  cases kind <;> rfl

theorem isCloser_blurred (kind : Kind) : kind.blurred.isCloser = kind.isCloser := by
  cases kind <;> rfl

theorem closer_blurred (kind : Kind) : kind.blurred.closer = kind.closer.blurred := by
  cases kind <;> rfl

theorem isCloser_closer (kind : Kind) : kind.closer.isCloser = true := by
  cases kind <;> rfl

theorem blurred_of_loose (ho : kind.isOpener = false) (hc : kind.isCloser = false) :
    kind.blurred = kind := by
  cases kind <;> first | rfl | exact absurd ho (by decide) | exact absurd hc (by decide)

theorem eq_templateTail_of_blurred (h : kind.blurred = .templateTail) : kind = .templateTail := by
  cases kind <;> first | rfl | cases h

theorem isOpener_of_isCloser (h : kind.isCloser = true) : kind.isOpener = false := by
  cases kind <;> first | rfl | cases h

theorem nest_opener (h : kind.isOpener = true) :
    nest opened kind = some (kind.closer :: opened) := by
  simp [nest, h]

theorem nest_closer (h : kind.isCloser = true) :
    nest opened kind = some after ↔ opened = kind :: after := by
  have hhead : kind ≠ .templateHead := by
    rintro rfl
    cases h
  simp only [nest, isOpener_of_isCloser h, h, hhead, Bool.true_or, Bool.false_eq_true, if_false,
    if_true]
  cases opened <;> simp

theorem nest_templateTail :
    nest opened .templateTail = some after ↔ opened = .templateTail :: after := by
  cases opened <;> simp [nest, isOpener]

theorem nest_templateMiddle :
    nest opened .templateMiddle = some after ↔
      opened.head? = some .templateTail ∧ opened = after := by
  simp [nest, isOpener, isCloser]

/-- A kind that is no bracket is a part of a template or changes nothing. -/
theorem loose_cases (ho : kind.isOpener = false) (hc : kind.isCloser = false) :
    kind = .templateHead ∨ kind = .templateMiddle ∨ kind = .templateTail ∨
      ∀ opened, nest opened kind = some opened := by
  by_cases hhead : kind = .templateHead
  · exact .inl hhead
  by_cases hmiddle : kind = .templateMiddle
  · exact .inr (.inl hmiddle)
  by_cases htail : kind = .templateTail
  · exact .inr (.inr (.inl htail))
  · simp [nest, ho, hc, hhead, hmiddle, htail]

theorem settle_opener (h : kind.isOpener = true) :
    settle strays opened kind = some (kind.closer :: opened) := by
  simp [settle, h]

theorem settle_loose (ho : kind.isOpener = false) (hc : kind.isCloser = false) :
    settle strays opened kind = some opened := by
  simp [settle, ho, hc]

theorem settle_closer_cons {c : Kind} (h : kind.isCloser = true) :
    settle strays (c :: opened) kind = some after ↔ c = kind ∧ opened = after := by
  simp [settle, h, isOpener_of_isCloser h]

/-- A stray bracket. -/
theorem settle_stray (ho : kind.isOpener = false) : settle true [] kind = some [] := by
  simp [settle, ho]

theorem nest_of_not_isPart (h : kind.isPart = false) :
    nest opened kind = settle false opened kind := by
  have hhead : kind ≠ .templateHead := by
    rintro rfl
    cases h
  have hmiddle : kind ≠ .templateMiddle := by
    rintro rfl
    cases h
  have htail : kind ≠ .templateTail := by
    rintro rfl
    cases h
  simp [nest, settle, hhead, hmiddle, htail]

theorem nest_blurred (h : nest opened kind = some after) :
    nest (opened.map blurred) kind.blurred = some (after.map blurred) := by
  by_cases ho : kind.isOpener = true
  · rw [nest_opener ho] at h
    cases h
    rw [nest_opener (by rwa [isOpener_blurred]), closer_blurred, List.map_cons]
  by_cases hc : kind.isCloser = true
  · rw [nest_closer hc] at h
    rw [nest_closer (by rwa [isCloser_blurred]), h, List.map_cons]
  rw [Bool.not_eq_true] at ho hc
  rw [blurred_of_loose ho hc]
  obtain rfl | rfl | rfl | hother := loose_cases ho hc
  · cases h
    rfl
  · obtain ⟨hopen, rfl⟩ := nest_templateMiddle.1 h
    apply nest_templateMiddle.2
    simp [hopen, blurred]
  · apply nest_templateTail.2
    rw [nest_templateTail.1 h, List.map_cons]
    rfl
  · rw [hother] at h ⊢
    cases h
    rfl

/-- What is open is found from what is open with all brackets taken for one kind, and from the
kinds of the open brackets. -/
theorem nest_of_blurred {blurry settled : List Kind}
    (hblurry : nest (opened.map blurred) kind.blurred = some blurry)
    (hsettled : settle strays (opened.filter isCloser) kind = some settled) :
    ∃ after, nest opened kind = some after ∧ after.map blurred = blurry ∧
      after.filter isCloser = settled := by
  by_cases ho : kind.isOpener = true
  · rw [nest_opener (by rwa [isOpener_blurred]), closer_blurred] at hblurry
    rw [settle_opener ho] at hsettled
    cases hblurry
    cases hsettled
    exact ⟨_, nest_opener ho, rfl, by rw [List.filter_cons_of_pos (isCloser_closer kind)]⟩
  by_cases hc : kind.isCloser = true
  · rw [nest_closer (by rwa [isCloser_blurred])] at hblurry
    obtain ⟨c, outer, rfl, hkind, houter⟩ := List.map_eq_cons_iff.1 hblurry
    have hcloser : c.isCloser = true := by rw [← isCloser_blurred, hkind, isCloser_blurred, hc]
    rw [List.filter_cons_of_pos hcloser, settle_closer_cons hc] at hsettled
    obtain ⟨rfl, hsettled⟩ := hsettled
    exact ⟨outer, (nest_closer hc).2 rfl, houter, hsettled⟩
  rw [Bool.not_eq_true] at ho hc
  rw [blurred_of_loose ho hc] at hblurry
  rw [settle_loose ho hc] at hsettled
  cases hsettled
  obtain rfl | rfl | rfl | hother := loose_cases ho hc
  · cases hblurry
    exact ⟨.templateTail :: opened, rfl, rfl, rfl⟩
  · obtain ⟨hopen, rfl⟩ := nest_templateMiddle.1 hblurry
    rw [List.head?_map] at hopen
    obtain ⟨c, hhead, hkind⟩ := Option.map_eq_some_iff.1 hopen
    rw [eq_templateTail_of_blurred hkind] at hhead
    exact ⟨opened, nest_templateMiddle.2 ⟨hhead, rfl⟩, rfl, rfl⟩
  · obtain ⟨c, outer, rfl, hkind, houter⟩ := List.map_eq_cons_iff.1 (nest_templateTail.1 hblurry)
    rw [eq_templateTail_of_blurred hkind]
    exact ⟨outer, nest_templateTail.2 rfl, houter, rfl⟩
  · rw [hother] at hblurry
    cases hblurry
    exact ⟨opened, hother opened, rfl, rfl⟩

end Cases

variable {strays : Bool} {kinds opened : List Kind}

theorem foldlM_nest_blurred {after : List Kind} (h : kinds.foldlM nest opened = some after) :
    (kinds.map blurred).foldlM nest (opened.map blurred) = some (after.map blurred) := by
  induction kinds generalizing opened with
  | nil =>
    cases h
    rfl
  | cons kind kinds ih =>
    rw [List.foldlM_cons] at h
    obtain ⟨next, hnext, hrest⟩ := Option.bind_eq_some_iff.1 h
    rw [List.map_cons, List.foldlM_cons, nest_blurred hnext]
    exact ih hrest

theorem foldlM_nest_of_blurred {blurry settled : List Kind}
    (hblurry : (kinds.map blurred).foldlM nest (opened.map blurred) = some blurry)
    (hsettled : kinds.foldlM (settle strays) (opened.filter isCloser) = some settled) :
    ∃ after, kinds.foldlM nest opened = some after ∧ after.map blurred = blurry := by
  induction kinds generalizing opened with
  | nil =>
    cases hblurry
    exact ⟨opened, rfl, rfl⟩
  | cons kind kinds ih =>
    rw [List.map_cons, List.foldlM_cons] at hblurry
    rw [List.foldlM_cons] at hsettled
    obtain ⟨blurry', hblurry', hblurry⟩ := Option.bind_eq_some_iff.1 hblurry
    obtain ⟨settled', hsettled', hsettled⟩ := Option.bind_eq_some_iff.1 hsettled
    obtain ⟨next, hnext, rfl, rfl⟩ := nest_of_blurred hblurry' hsettled'
    rw [List.foldlM_cons, hnext]
    exact ih hblurry hsettled

theorem foldlM_nest_of_not_isPart (h : ∀ kind ∈ kinds, kind.isPart = false) :
    kinds.foldlM nest opened = kinds.foldlM (settle false) opened := by
  induction kinds generalizing opened with
  | nil => rfl
  | cons kind kinds ih =>
    rw [List.foldlM_cons, List.foldlM_cons, nest_of_not_isPart (h kind List.mem_cons_self)]
    congr 1
    funext next
    exact ih fun kind hk => h kind (List.mem_cons_of_mem _ hk)

/-- Where there are no substitutions, there are only brackets to close. -/
theorem balanced_iff_settled (h : ∀ kind ∈ kinds, kind.isPart = false) :
    Balanced kinds ↔ Settled false kinds := by
  rw [Balanced, Settled, foldlM_nest_of_not_isPart h]

/-- Where the kinds of brackets match, only their numbers are left to match. -/
theorem balanced_iff_blurred (h : Settled strays kinds) :
    Balanced kinds ↔ Balanced (kinds.map blurred) := by
  constructor
  · intro hbalanced
    exact foldlM_nest_blurred hbalanced
  · intro hblurry
    have hrun : (kinds.map blurred).foldlM nest (List.map blurred []) = some [] := hblurry
    obtain ⟨after, hafter, hnil⟩ := foldlM_nest_of_blurred hrun h
    rw [List.map_eq_nil_iff.1 hnil] at hafter
    exact hafter

end JsxPresence.Kind
