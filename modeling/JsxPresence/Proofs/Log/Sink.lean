import JsxPresence.Log.Logger
import JsxPresence.Proofs.FileSystem.Writing

namespace JsxPresence

open FileSystem

namespace Log

/-- The sink writes no other file. -/
def Sink.WritesOnly (path : Bytes) : Sink → Prop
  | .memory _ => True
  | .console _ _ => True
  | .file target _ => target = path

namespace Logger

/-- Setting up touches the log file only, which then is the only one that is logged to. -/
theorem configure_frame (config : Config) (terminal : Terminal) (fs : FileSystem) :
    AgreeOff (fs.At config.file) fs (configure config terminal fs).2.2 ∧
      ∀ sink ∈ (configure config terminal fs).1.sinks, sink.WritesOnly config.file := by
  have hconsole : ∀ sink ∈ (if config.console then
      [Sink.console config.format (config.colors && terminal.showsColors)] else []),
      sink.WritesOnly config.file := by
    intro sink hsink
    split at hsink
    · rw [List.mem_singleton.1 hsink]
      trivial
    · cases hsink
  unfold configure
  dsimp only
  split
  · exact ⟨.refl _ _, hconsole⟩
  · split
    next => exact ⟨.refl _ _, hconsole⟩
    next fs' h =>
      refine ⟨.append? h, fun sink hsink => ?_⟩
      obtain hsink | hsink := List.mem_append.1 hsink
      · exact hconsole sink hsink
      · rw [List.mem_singleton.1 hsink]
        rfl

/-- Writing touches the log file only. -/
theorem write_frame {l : Logger} {path : Bytes} (h : ∀ sink ∈ l.sinks, sink.WritesOnly path)
    (r : Record) (fs : FileSystem) :
    AgreeOff (fs.At path) fs (l.write r fs).2.2 ∧
      ∀ sink ∈ (l.write r fs).1.sinks, sink.WritesOnly path := by
  unfold write
  dsimp only
  refine List.foldlRecOn (motive := fun state : List Sink × Bytes × FileSystem =>
    AgreeOff (fs.At path) fs state.2.2 ∧ ∀ sink ∈ state.1, sink.WritesOnly path) l.sinks _
    ⟨.refl _ _, fun _ hs => nomatch hs⟩ ?_
  rintro ⟨sinks, shown, fs'⟩ ⟨hagree, hsinks⟩ sink hsink
  have hmore (s : Sink) (hs : s.WritesOnly path) :
      ∀ sink ∈ sinks ++ [s], sink.WritesOnly path := by
    intro sink hmem
    obtain hmem | hmem := List.mem_append.1 hmem
    · exact hsinks sink hmem
    · rwa [List.mem_singleton.1 hmem]
  cases sink with
  | memory entries => exact ⟨hagree, hmore _ trivial⟩
  | console format colors => exact ⟨hagree, hmore _ trivial⟩
  | file target format =>
    obtain rfl : target = path := h _ hsink
    refine ⟨?_, hmore _ rfl⟩
    change AgreeOff (fs.At target) fs ((fs'.append? target (r.line format false)).getD fs')
    cases ha : fs'.append? target (r.line format false) with
    | none => exact hagree
    | some fs'' => exact hagree.trans ((AgreeOff.append? ha).mono fun _ hp => hagree.at_iff.1 hp)

end Logger

end Log

end JsxPresence
