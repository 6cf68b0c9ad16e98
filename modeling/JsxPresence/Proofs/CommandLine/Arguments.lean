import Mathlib.Data.List.Basic
import JsxPresence.CommandLine
import JsxPresence.Proofs.Bytes

namespace JsxPresence

/-- Of two texts that do not begin with one another, at most one begins a text. -/
theorem Bytes.strip?_eq_none {head head' s t : Bytes} (h : strip? head s = some t)
    (h1 : ¬head <+: head') (h2 : ¬head' <+: head) : strip? head' s = none := by
  rw [Option.eq_none_iff_forall_ne_some]
  intro t' h'
  obtain hp | hp := List.prefix_or_prefix_of_prefix
    ⟨t, (strip?_eq_some_iff.1 h).symm⟩ ⟨t', (strip?_eq_some_iff.1 h').symm⟩
  · exact h1 hp
  · exact h2 hp

/-- The value of the last argument that sets an option. -/
def lastValue? (option : Bytes) (args : List Bytes) : Option Bytes :=
  (args.filterMap (Bytes.strip? option)).getLast?

theorem lastValue?_cons (option arg : Bytes) (args : List Bytes) :
    lastValue? option (arg :: args) = (lastValue? option args).or (Bytes.strip? option arg) := by
  unfold lastValue?
  rw [List.filterMap_cons]
  cases hs : Bytes.strip? option arg with
  | none => rw [Option.or_none]
  | some value =>
    rw [List.getLast?_cons]
    cases (args.filterMap (Bytes.strip? option)).getLast? <;> rfl

/-- Arguments that do not set the option can be left out. -/
theorem lastValue?_filter {option : Bytes} {p : Bytes → Bool}
    (h : ∀ value, p (option ++ value) = true) (args : List Bytes) :
    lastValue? option (args.filter p) = lastValue? option args := by
  induction args with
  | nil => rfl
  | cons arg args ih =>
    rw [List.filter_cons, lastValue?_cons]
    split
    next => rw [lastValue?_cons, ih]
    next hp =>
      have hs : Bytes.strip? option arg = none := by
        rw [Option.eq_none_iff_forall_ne_some]
        intro value hv
        rw [Bytes.strip?_eq_some_iff.1 hv] at hp
        exact hp (h value)
      rw [ih, hs, Option.or_none]

namespace Log.Arguments

theorem Request.take_file (r : Request) (arg : Bytes) :
    (r.take arg).config.file = (Bytes.strip? fileOption arg).getD r.config.file := by
  unfold Request.take
  split
  next value hl => rw [Bytes.strip?_eq_none hl (by decide) (by decide)]; rfl
  split
  next value hf => rw [Bytes.strip?_eq_none hf (by decide) (by decide)]; rfl
  split
  next value h => rw [h]; rfl
  next h =>
    rw [h]
    split
    · rfl
    · split
      · rfl
      · split <;> rfl

theorem foldl_take_file (args : List Bytes) (r : Request) :
    (args.foldl Request.take r).config.file = (lastValue? fileOption args).getD r.config.file := by
  induction args generalizing r with
  | nil => rfl
  | cons arg args ih =>
    rw [List.foldl_cons, ih, Request.take_file, lastValue?_cons]
    cases lastValue? fileOption args <;> rfl

/-- The log file is the last one stated. -/
theorem file_parse (args : List Bytes) (setting : Option Bytes) :
    (parse args setting).file = (lastValue? fileOption args).getD [] := by
  have hsetting (text : Bytes) (c : Config) : (applySetting text c).file = c.file := by
    unfold applySetting
    split
    · rfl
    · split <;> rfl
  rw [← foldl_take_file args {}]
  unfold parse
  generalize args.foldl Request.take {} = r
  dsimp only
  split
  · rfl
  · split
    · rfl
    · split
      · rfl
      · exact hsetting _ _

/-- An argument that is not about logging changes nothing. -/
theorem Request.take_of_not_isLogOption {arg : Bytes} (h : isLogOption arg = false)
    (r : Request) : r.take arg = r := by
  unfold isLogOption at h
  simp only [Bool.or_eq_false_iff, List.any_cons, List.any_nil, decide_eq_false_iff_not] at h
  obtain ⟨⟨⟨⟨hlevel, hfilter, hfile, hformat, -⟩, hquiet⟩, hverbose⟩, hverbosity⟩ := h
  unfold Request.take Bytes.strip?
  simp [hlevel, hfilter, hfile, hformat, hquiet, hverbose, Nat.eq_zero_of_not_pos hverbosity]

/-- Arguments that are not about logging can be left out. -/
theorem Request.foldl_take_filter {p : Bytes → Bool}
    (h : ∀ arg, isLogOption arg = true → p arg = true) (args : List Bytes) (r : Request) :
    (args.filter p).foldl Request.take r = args.foldl Request.take r := by
  induction args generalizing r with
  | nil => rfl
  | cons arg args ih =>
    rw [List.filter_cons]
    split
    next => exact ih _
    next hp =>
      have hlog : isLogOption arg = false := Bool.eq_false_iff.2 (mt (h arg) hp)
      rw [List.foldl_cons, Request.take_of_not_isLogOption hlog, ih]

end Log.Arguments

namespace CommandLine

/-- The option that says where transformed text goes. -/
def outputOption : Bytes := utf8 "--output="

/-- Arguments that do not say where transformed text goes. -/
def isOther (arg : Bytes) : Bool := (Bytes.strip? outputOption arg).isNone

theorem strip?_of_isOther {arg : Bytes} (h : isOther arg = true) :
    Bytes.strip? outputOption arg = none := Option.isNone_iff_eq_none.1 h

theorem exists_output_of_not_isOther {arg : Bytes} (h : ¬isOther arg = true) :
    ∃ value, arg = outputOption ++ value := by
  obtain ⟨value, hs⟩ := Option.ne_none_iff_exists'.1 fun hs => h (Option.isNone_iff_eq_none.2 hs)
  exact ⟨value, Bytes.strip?_eq_some_iff.1 hs⟩

/-- The command line with another path for transformed text. -/
def withOutput (output : Option Bytes) (c : CommandLine) : CommandLine := { c with output := output }

theorem isLogOption_output (value : Bytes) :
    Log.Arguments.isLogOption (outputOption ++ value) = false := by
  rfl

theorem take_output (c : CommandLine) (value : Bytes) :
    c.take (outputOption ++ value) = .ok (c.withOutput (some value)) := by
  rfl

/-- The other options do not depend on the path for transformed text and leave it alone. -/
theorem set_withOutput {setter : Bytes × (CommandLine → Bytes → Except UsageError CommandLine)}
    (h : setter ∈ setters.tail) (output : Option Bytes) (c : CommandLine) (value : Bytes) :
    setter.2 (c.withOutput output) value = (setter.2 c value).map (withOutput output) := by
  simp only [setters, List.tail_cons, List.mem_cons, List.not_mem_nil, or_false] at h
  rcases h with rfl | rfl | rfl | rfl | rfl | rfl | rfl
  · rfl
  · rfl
  · rfl
  · rfl
  · rfl
  · rfl
  · cases hd : depth? value <;> simp only [hd] <;> rfl

theorem setValue?_withOutput {arg : Bytes} (h : isOther arg = true) (output : Option Bytes)
    (c : CommandLine) :
    setValue? (c.withOutput output) arg =
      (setValue? c arg).map (Except.map (withOutput output)) := by
  have heq (c : CommandLine) : setValue? c arg =
      (setters.filterMap fun s => (Bytes.strip? s.1 arg).map (s.2 c)).head? :=
    List.head?_filterMap.symm
  rw [heq, heq, ← List.head?_map, List.map_filterMap]
  refine congrArg List.head? (List.filterMap_congr fun setter hsetter => ?_)
  have hcases : setter ∈ setters.head (by decide) :: setters.tail := hsetter
  obtain rfl | hmem := List.mem_cons.1 hcases
  · change (Bytes.strip? outputOption arg).map _ = ((Bytes.strip? outputOption arg).map _).map _
    rw [strip?_of_isOther h]
    rfl
  · cases Bytes.strip? setter.1 arg with
    | none => rfl
    | some value => exact congrArg some (set_withOutput hmem output c value)

/-- The other arguments do not depend on the path for transformed text and leave it alone. -/
theorem take_withOutput {arg : Bytes} (h : isOther arg = true) (output : Option Bytes)
    (c : CommandLine) :
    (c.withOutput output).take arg = (c.take arg).map (withOutput output) := by
  unfold take
  rw [setValue?_withOutput h]
  split
  · rfl
  split
  · rfl
  split
  · rfl
  cases setValue? c arg with
  | some result => rfl
  | none =>
    dsimp only [Option.map_none]
    split
    · rfl
    · change (if c.file.isEmpty then _ else _) = _
      split <;> rfl

theorem output_of_take {arg : Bytes} (h : isOther arg = true) {c c' : CommandLine}
    (ht : c.take arg = .ok c') : c'.output = c.output := by
  have hc : c.take arg = (c.take arg).map (withOutput c.output) := take_withOutput h c.output c
  rw [ht] at hc
  have hc' : c' = c'.withOutput c.output := Except.ok.inj hc
  rw [hc']
  rfl

theorem foldlM_withOutput {args : List Bytes} (h : ∀ arg ∈ args, isOther arg = true)
    (output : Option Bytes) (c : CommandLine) :
    args.foldlM take (c.withOutput output) = (args.foldlM take c).map (withOutput output) := by
  induction args generalizing c with
  | nil => rfl
  | cons arg args ih =>
    obtain ⟨harg, hargs⟩ := List.forall_mem_cons.1 h
    rw [List.foldlM_cons, List.foldlM_cons, take_withOutput harg]
    cases c.take arg with
    | error _ => rfl
    | ok c' => exact ih hargs c'

/-- Reading arguments is reading the others; then the last path for transformed text counts. -/
theorem foldlM_take (args : List Bytes) (c : CommandLine) :
    args.foldlM take c = ((args.filter isOther).foldlM take c).map
      (withOutput ((lastValue? outputOption args).or c.output)) := by
  induction args generalizing c with
  | nil => rfl
  | cons arg args ih =>
    by_cases harg : isOther arg = true
    · rw [List.filter_cons_of_pos harg, List.foldlM_cons, List.foldlM_cons, lastValue?_cons,
        strip?_of_isOther harg, Option.or_none]
      cases ht : c.take arg with
      | error _ => rfl
      | ok c' => exact (ih c').trans (by rw [output_of_take harg ht]; rfl)
    · have hothers : ∀ arg ∈ args.filter isOther, isOther arg = true :=
        fun _ ha => (List.mem_filter.1 ha).2
      rw [List.filter_cons_of_neg harg]
      obtain ⟨value, rfl⟩ := exists_output_of_not_isOther harg
      rw [List.foldlM_cons, take_output, lastValue?_cons, Bytes.strip?_append]
      refine (ih _).trans ?_
      rw [foldlM_withOutput hothers]
      cases (args.filter isOther).foldlM take c with
      | error _ => rfl
      | ok c' => cases lastValue? outputOption args <;> rfl

theorem command_of_set {setter : Bytes × (CommandLine → Bytes → Except UsageError CommandLine)}
    (h : setter ∈ setters) {c c' : CommandLine} {value : Bytes} (hs : setter.2 c value = .ok c') :
    c'.command = c.command := by
  simp only [setters, List.mem_cons, List.not_mem_nil, or_false] at h
  rcases h with rfl | rfl | rfl | rfl | rfl | rfl | rfl | rfl
  · cases hs; rfl
  · cases hs; rfl
  · cases hs; rfl
  · cases hs; rfl
  · cases hs; rfl
  · cases hs; rfl
  · cases hs; rfl
  · cases hd : depth? value with
    | none => simp only [hd, reduceCtorEq] at hs
    | some depth =>
      simp only [hd, Except.ok.injEq] at hs
      rw [← hs]

theorem command_of_take {arg : Bytes} {c c' : CommandLine} (h : c.take arg = .ok c') :
    c'.command = c.command := by
  unfold take at h
  split at h
  · cases h; rfl
  split at h
  · cases h; rfl
  split at h
  · cases h; rfl
  split at h
  next result hset =>
    obtain ⟨setter, hmem, hset⟩ := List.exists_of_findSome?_eq_some hset
    obtain ⟨value, -, hset⟩ := Option.map_eq_some_iff.1 hset
    exact command_of_set hmem (hset.trans h)
  next =>
    split at h
    · cases h
    split at h
    · cases h; rfl
    · cases h

theorem command_of_foldlM {args : List Bytes} {c c' : CommandLine}
    (h : args.foldlM take c = .ok c') : c'.command = c.command := by
  induction args generalizing c with
  | nil => cases h; rfl
  | cons arg args ih =>
    rw [List.foldlM_cons] at h
    cases ht : c.take arg with
    | error _ => rw [ht] at h; cases h
    | ok d =>
      rw [ht] at h
      exact (ih h).trans (command_of_take ht)

/-- To step over the options about logging is to leave them out beforehand. -/
theorem foldlM_step (args : List Bytes) (c : CommandLine) :
    args.foldlM step c = (args.filter (!Log.Arguments.isLogOption ·)).foldlM take c := by
  rw [List.foldlM_filter]
  congr 1
  funext c arg
  unfold step
  cases Log.Arguments.isLogOption arg <;> rfl

theorem parse_cons (first : Bytes) (rest : List Bytes) : parse (first :: rest) =
    ((rest.filter (!Log.Arguments.isLogOption ·)).foldlM take { command := first }).bind
      fun c => if c.file.isEmpty then .error (.missingFile first) else .ok c := by
  rw [← foldlM_step]
  rfl

/-- The command is the first argument. -/
theorem command_of_parse {args : List Bytes} {c : CommandLine} (h : parse args = .ok c) :
    args.head? = some c.command := by
  cases args with
  | nil => cases h
  | cons first rest =>
    rw [parse_cons] at h
    cases ht : (rest.filter (!Log.Arguments.isLogOption ·)).foldlM take { command := first } with
    | error _ => rw [ht] at h; cases h
    | ok d =>
      rw [ht, Except.bind] at h
      split at h
      · cases h
      · cases h
        exact congrArg some (command_of_foldlM ht).symm

/-- The arguments without those that say where transformed text goes. -/
def withoutOutput : List Bytes → List Bytes
  | [] => []
  | first :: rest => first :: rest.filter isOther

/-- The path for transformed text. -/
def outputPath? (args : List Bytes) : Option Bytes := lastValue? outputOption args.tail

theorem outputPath?_withoutOutput (args : List Bytes) : outputPath? (withoutOutput args) = none := by
  cases args with
  | nil => rfl
  | cons first rest =>
    change ((rest.filter isOther).filterMap (Bytes.strip? outputOption)).getLast? = none
    have hnone : (rest.filter isOther).filterMap (Bytes.strip? outputOption) = [] :=
      List.filterMap_eq_nil_iff.2 fun arg harg => strip?_of_isOther (List.mem_filter.1 harg).2
    rw [hnone]
    rfl

/-- Arguments are read as without a path for transformed text, which then is added. -/
theorem parse_eq_map (args : List Bytes) :
    parse args = (parse (withoutOutput args)).map (withOutput (outputPath? args)) := by
  cases args with
  | nil => rfl
  | cons first rest =>
    have hfilter : (rest.filter isOther).filter (!Log.Arguments.isLogOption ·) =
        (rest.filter (!Log.Arguments.isLogOption ·)).filter isOther := by
      rw [List.filter_filter, List.filter_filter]
      exact List.filter_congr fun arg _ => Bool.and_comm _ _
    have hvalue : lastValue? outputOption (rest.filter (!Log.Arguments.isLogOption ·)) =
        lastValue? outputOption rest :=
      lastValue?_filter (fun value => by rw [isLogOption_output]; rfl) rest
    rw [withoutOutput, parse_cons, parse_cons, hfilter, foldlM_take, hvalue, Option.or_none]
    cases ((rest.filter (!Log.Arguments.isLogOption ·)).filter isOther).foldlM take
        { command := first } with
    | error _ => rfl
    | ok c =>
      rw [Except.map, Except.bind, Except.bind]
      change (if c.file.isEmpty then _ else _) = _
      split <;> rfl

theorem logParse_withoutOutput (args : List Bytes) (setting : Option Bytes) :
    Log.Arguments.parse (withoutOutput args) setting = Log.Arguments.parse args setting := by
  have hother (arg : Bytes) (h : Log.Arguments.isLogOption arg = true) : isOther arg = true := by
    by_contra hn
    obtain ⟨value, rfl⟩ := exists_output_of_not_isOther hn
    rw [isLogOption_output] at h
    cases h
  cases args with
  | nil => rfl
  | cons first rest =>
    unfold Log.Arguments.parse withoutOutput
    rw [List.foldl_cons, Log.Arguments.Request.foldl_take_filter hother, List.foldl_cons]

end CommandLine

end JsxPresence
