import JsxPresence.Outline.Walk
import JsxPresence.Proofs.Outline.Tag

namespace JsxPresence.Reader

variable {text : Bytes} {r : Reader text}

theorem resumeAfter_ready (lx : Lexer text) {offset : Nat}
    (ho : text.Short → offset ≤ text.length) :
    Yields (resumeAfter lx offset) fun s => s.Ready ∧ s.lastEnd = offset := by
  unfold resumeAfter
  refine (checked_yields _).mono fun s hs => ?_
  subst hs
  exact ⟨ready_next fun hs => by simpa using ho hs, rfl⟩

/-- The element at hand, and the reader that goes on behind it. -/
theorem element_found {element : ElementWalk text} (he : element.Sound) (h : r.Ready)
    (hl : r.current.kind = .less) :
    Yields (do
      let (inner, lx, stop) ← element r.lexer r.current.span.start
      let r ← resumeAfter lx stop
      return (inner, r)) r.Found := by
  have hlt (hs : text.Short) := ((h.placed hs).mark (c := byte '<') (by rw [hl]; rfl)).2
  refine (he _ _ hlt).bind fun x hx => ?_
  obtain ⟨inner, lx, stop⟩ := x
  refine (resumeAfter_ready lx fun hs => (hx.2 hs).2).bind fun s hs => ?_
  obtain ⟨hready, hlast⟩ := hs
  obtain ⟨hsound, hstop⟩ := hx
  simp only at hsound hstop hlast
  refine .pure ⟨⟨hready, fun hsh => ?_, fun hsh => ?_⟩, ?_⟩
  · have h1 := h.lastEnd_le hsh
    have h2 := hstop hsh
    dsimp only
    omega
  · have h1 := hready.lastEnd_le hsh
    have h2 := hstop hsh
    dsimp only
    omega
  · rw [hlast]
    exact hsound

theorem walkUnit_sound (elements : Bool) {walk : Walk text} {element : ElementWalk text}
    (hw : walk.Sound) (he : element.Sound) (hr : element.Records) (fuel : Nat) :
    Walk.Sound (walkUnit elements walk element fuel) where
  found {r} h := by
    unfold walkUnit
    split
    · exact walkGroup_found hw fuel h
    · exact walkGroup_found hw fuel h
    · exact walkGroup_found hw fuel h
    · exact .error _
    · exact .error _
    · exact .error _
    · rename_i hk
      exact .ite (fun _ => element_found he h hk) fun _ => walkToken_found h
    · rename_i hk
      exact walkChain_found hw fuel h (by simp [hk])
    · rename_i hk
      exact .ite (fun _ => walkChain_found hw fuel h (by simp [hk])) fun _ => walkToken_found h
    · exact walkToken_found h
  reference {r last path n} hi hn hd he := by
    have hk : r.current.kind = .identifier := of_decide_eq_true hi
    simp only [walkUnit, hk]
    exact walkChain_reference hn hd he
  passes := walkUnit_passesFree hw.passes (fun _ => ⟨rfl, hr⟩) fuel

theorem walkElement_records (elements : Bool) (fuel : Nat) :
    (walkElement elements fuel : ElementWalk text).Records :=
  match fuel with
  | 0 => fun _ _ => .error _
  | fuel + 1 => Tag.element_records (walk elements fuel) (walkElement elements fuel) fuel

mutual

theorem walk_sound (elements : Bool) (fuel : Nat) : (walk elements fuel : Walk text).Sound :=
  match fuel with
  | 0 => ⟨fun _ => .error _, fun _ _ _ _ => .error _, fun _ => .error _⟩
  | fuel + 1 =>
    walkUnit_sound elements (walk_sound elements fuel) (walkElement_sound elements fuel)
      (walkElement_records elements fuel) fuel

theorem walkElement_sound (elements : Bool) (fuel : Nat) :
    (walkElement elements fuel : ElementWalk text).Sound :=
  match fuel with
  | 0 => fun _ _ _ => .error _
  | fuel + 1 => Tag.element_sound (walk_sound elements fuel) (walkElement_sound elements fuel) fuel

end

end JsxPresence.Reader
