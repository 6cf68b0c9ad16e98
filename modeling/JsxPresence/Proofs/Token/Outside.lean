import JsxPresence.Proofs.Outline.Brackets
import JsxPresence.Proofs.Token.Stream

namespace JsxPresence

theorem Punctuator.Scanned.not_isPart {b : UInt8} {r : Bytes} {kind : Kind} {n : Nat}
    (h : Scanned b r kind n) : kind.isPart = false := by
  rcases h with ⟨hk, -⟩ | ⟨rfl, -⟩ | ⟨hk, -⟩
  · unfold single? at hk
    iterate 12
      rcases ite_eq_some hk with ⟨-, hk⟩ | ⟨-, hk⟩
      · cases hk
        rfl
    cases hk
  · rfl
  · cases kind <;> first | rfl | cases hk

namespace Lexer

/-- The head of a template, or no part of one and still no substitution that is open. -/
def Scan.Outside (s : Scan) : Prop :=
  s.kind = .templateHead ∨ (s.kind.isPart = false ∧ s.depths = [])

namespace Scan

theorem outside_plain {kind : Kind} (n : Nat) (h : kind.isPart = false) :
    (plain [] kind n).Outside := .inr ⟨h, rfl⟩

theorem outside_ofExtent {kind : Kind} (cause : LexicalCause) (opening : Nat) (e : Literal.Extent)
    (h : kind.isPart = false) : (ofExtent [] kind cause opening e).Outside :=
  of_ite (fun _ => outside_plain _ h) fun _ => .inr ⟨rfl, rfl⟩

theorem outside_templateStart (r : Bytes) : (templateStart [] r).Outside := by
  unfold templateStart
  dsimp only
  split
  · exact .inr ⟨rfl, rfl⟩
  · exact .inl rfl
  · exact .inr ⟨rfl, rfl⟩

theorem outside_punctuator (b : UInt8) (r : Bytes) : (punctuator [] b r).Outside := by
  unfold punctuator
  split
  · exact .inr ⟨rfl, rfl⟩
  · exact .inr ⟨rfl, rfl⟩
  · exact .inr ⟨rfl, rfl⟩
  · rename_i hs
    exact outside_plain _ (Punctuator.scan?_cases hs).not_isPart

theorem outside_token (regexAllowed : Bool) (b : UInt8) (r : Bytes) :
    (token regexAllowed [] b r).Outside := by
  unfold token
  split_ifs
  · exact outside_plain _ (of_ite (P := fun kind : Kind => kind.isPart = false) (fun _ => rfl)
      fun _ => rfl)
  · exact outside_ofExtent _ _ _ rfl
  · exact outside_ofExtent _ _ _ rfl
  · exact outside_templateStart r
  · exact outside_ofExtent _ _ _ rfl
  · exact outside_punctuator b r

end Scan

variable {text : Bytes} {lx : Lexer text}

theorem next_depths_of_rest_cons {b : UInt8} {r : Bytes} (h : lx.ahead.rest = b :: r) :
    lx.next.2.depths = (Scan.token lx.ahead.regexAllowed lx.ahead.depths b r).depths := by
  unfold ahead at h
  simp only [next, h]
  rfl

theorem next_outside (h : lx.depths = []) (hhead : lx.next.1.kind ≠ .templateHead) :
    lx.next.1.kind.isPart = false ∧ lx.next.2.depths = [] := by
  have hdepths : lx.ahead.depths = [] := h
  cases hr : lx.ahead.rest with
  | nil =>
    rw [next_of_rest_nil hr]
    exact ⟨rfl, hdepths⟩
  | cons b r =>
    rw [(next_of_rest_cons hr).1, hdepths] at hhead ⊢
    rw [next_depths_of_rest_cons hr, hdepths]
    exact (Scan.outside_token lx.ahead.regexAllowed b r).resolve_left hhead

/-- Without the head of a template there are no other parts of one. -/
theorem stream_outside (lx : Lexer text) (h : lx.depths = [])
    (hhead : .templateHead ∉ lx.stream.map Token.kind) :
    ∀ kind ∈ lx.stream.map Token.kind, kind.isPart = false := by
  induction lx using stream_induction with
  | last lx hk =>
    rw [stream_of_eof hk, List.map_singleton]
    intro kind hkind
    rw [List.mem_singleton.1 hkind, hk]
    rfl
  | step lx hk ih =>
    rw [stream_of_token hk, List.map_cons, List.mem_cons, not_or] at hhead
    obtain ⟨hpart, hdepths⟩ := next_outside h (Ne.symm hhead.1)
    rw [stream_of_token hk, List.map_cons, List.forall_mem_cons]
    exact ⟨hpart, ih hdepths hhead.2⟩

end Lexer

end JsxPresence
