import JsxPresence.Proofs.CommandLine.Arguments

namespace JsxPresence

namespace Log.Arguments

/-- The arguments about logging are those that what to log can depend on. -/
theorem isLogOption_eq_false_iff (arg : Bytes) :
    isLogOption arg = false ↔ ∀ r : Request, r.take arg = r := by
  refine ⟨fun h => Request.take_of_not_isLogOption h, fun h => ?_⟩
  have hlevel : Bytes.strip? levelOption arg = none := by
    rw [Option.eq_none_iff_forall_ne_some]
    intro value hs
    have hsame := congrArg Request.level (h {})
    simp [Request.take, hs] at hsame
  have hfilter : Bytes.strip? filterOption arg = none := by
    rw [Option.eq_none_iff_forall_ne_some]
    intro value hs
    have hsame := congrArg (·.config.filterSpec) (h { config := { filterSpec := 0 :: value } })
    simp [Request.take, hlevel, hs] at hsame
  have hfile : Bytes.strip? fileOption arg = none := by
    rw [Option.eq_none_iff_forall_ne_some]
    intro value hs
    have hsame := congrArg (·.config.file) (h { config := { file := 0 :: value } })
    simp [Request.take, hlevel, hfilter, hs] at hsame
  have hformat : Bytes.strip? formatOption arg = none := by
    rw [Option.eq_none_iff_forall_ne_some]
    intro value hs
    have htext := congrArg (·.config.format) (h { config := { format := .text } })
    have hjson := congrArg (·.config.format) (h { config := { format := .json } })
    simp only [Request.take, hlevel, hfilter, hfile, hs] at htext hjson
    exact absurd (htext.symm.trans hjson) (by decide)
  have hquiet : isQuiet arg = false := by
    rw [Bool.eq_false_iff]
    intro hq
    have hsame := congrArg Request.level (h {})
    simp [Request.take, hlevel, hfilter, hfile, hformat, hq] at hsame
  have hverbose : arg ≠ utf8 "--verbose" := by
    rintro rfl
    exact absurd (congrArg Request.verbose (h {})) (by decide)
  have hverbosity : verbosity arg = 0 := by
    have hsame := congrArg Request.verbose (h {})
    simpa [Request.take, hlevel, hfilter, hfile, hformat, hquiet, hverbose] using hsame
  have hhead {option : Bytes} (hs : Bytes.strip? option arg = none) :
      option.isPrefixOf arg = false := by
    rw [Bool.eq_false_iff]
    intro hp
    simp [Bytes.strip?, hp] at hs
  simp [isLogOption, hhead hlevel, hhead hfilter, hhead hfile, hhead hformat, hquiet, hverbose,
    hverbosity]

/-- What to log is decided by the arguments about logging alone. -/
theorem parse_filter (args : List Bytes) (setting : Option Bytes) :
    parse (args.filter isLogOption) setting = parse args setting := by
  unfold parse
  rw [Request.foldl_take_filter fun _ h => h]

end Log.Arguments

namespace CommandLine

open Log.Arguments (isLogOption)

/-- What to do is decided by the command and the later arguments that are not about logging. -/
theorem parse_filter (command : Bytes) (rest : List Bytes) :
    parse (command :: rest.filter (!isLogOption ·)) = parse (command :: rest) := by
  rw [parse_cons, parse_cons, List.filter_filter]
  simp only [Bool.and_self]

theorem filter_insert {p : Bytes → Bool} {before more after : List Bytes}
    (h : ∀ arg ∈ more, p arg = false) :
    (before ++ more ++ after).filter p = (before ++ after).filter p := by
  have hnone : more.filter p = [] := List.filter_eq_nil_iff.2 fun arg harg => by simp [h arg harg]
  rw [List.filter_append, List.filter_append, hnone, List.append_nil, List.filter_append]

/-- The two readings of the arguments are apart. What to log, with any setting of the environment,
is the same for arguments that agree on those about logging, wherever others are put in or left out;
these are the arguments that it can depend on at all. The command line, or what is wrong with it, is
the same for arguments that agree on the first one and on the later ones that are not about logging,
wherever arguments about logging are put in or left out. -/
theorem readings_separate (setting : Option Bytes) :
    ((∀ args args' : List Bytes, args.filter isLogOption = args'.filter isLogOption →
        Log.Arguments.parse args setting = Log.Arguments.parse args' setting) ∧
      (∀ before more after : List Bytes, (∀ arg ∈ more, isLogOption arg = false) →
        Log.Arguments.parse (before ++ more ++ after) setting =
          Log.Arguments.parse (before ++ after) setting) ∧
      ∀ arg, isLogOption arg = false ↔ ∀ r : Log.Arguments.Request, r.take arg = r) ∧
    (∀ (command : Bytes) (rest rest' : List Bytes),
        rest.filter (!isLogOption ·) = rest'.filter (!isLogOption ·) →
        parse (command :: rest) = parse (command :: rest')) ∧
    ∀ (command : Bytes) (before more after : List Bytes),
      (∀ arg ∈ more, isLogOption arg = true) →
      parse (command :: (before ++ more ++ after)) = parse (command :: (before ++ after)) := by
  have logging {args args' : List Bytes} (h : args.filter isLogOption = args'.filter isLogOption) :
      Log.Arguments.parse args setting = Log.Arguments.parse args' setting := by
    rw [← Log.Arguments.parse_filter args, h, Log.Arguments.parse_filter]
  have doing {rest rest' : List Bytes} (command : Bytes)
      (h : rest.filter (!isLogOption ·) = rest'.filter (!isLogOption ·)) :
      parse (command :: rest) = parse (command :: rest') := by
    rw [← parse_filter command rest, h, parse_filter]
  refine ⟨⟨fun args args' => logging, fun before more after hmore => ?_,
    Log.Arguments.isLogOption_eq_false_iff⟩, fun command rest rest' => doing command,
    fun command before more after hmore => ?_⟩
  · exact logging (filter_insert hmore)
  · refine doing command (filter_insert fun arg harg => ?_)
    rw [hmore arg harg]
    rfl

/-- Words that look like options about logging, and options about logging. -/
theorem readings_separate_mixedArgs :
    (∀ arg ∈ [utf8 "--vv", utf8 "--log-level"], isLogOption arg = false) ∧
    Log.Arguments.parse ([utf8 "-vv"] ++ [utf8 "--vv", utf8 "--log-level"] ++ [utf8 "a.tsx"])
        (some (utf8 "off")) =
      Log.Arguments.parse [utf8 "-vv"] none ∧
    (∀ arg ∈ [utf8 "-q", utf8 "--log-file=b"], isLogOption arg = true) ∧
    parse (utf8 "deps" :: ([utf8 "a.tsx"] ++ [utf8 "-q", utf8 "--log-file=b"] ++
      [utf8 "--max-depth=c"])) = .error (.invalidDepth (utf8 "c")) := by
  obtain ⟨⟨hlog, hlogInsert, -⟩, hdo, hdoInsert⟩ := readings_separate (some (utf8 "off"))
  have hwords : ∀ arg ∈ [utf8 "--vv", utf8 "--log-level"], isLogOption arg = false := by decide
  have hoptions : ∀ arg ∈ [utf8 "-q", utf8 "--log-file=b"], isLogOption arg = true := by decide
  refine ⟨hwords, ?_, hoptions, ?_⟩
  · rw [hlogInsert [utf8 "-vv"] _ [utf8 "a.tsx"] hwords,
      hlog ([utf8 "-vv"] ++ [utf8 "a.tsx"]) [utf8 "-vv"] (by decide)]
    decide
  · rw [hdoInsert _ [utf8 "a.tsx"] _ [utf8 "--max-depth=c"] hoptions,
      hdo _ _ [utf8 "--quiet", utf8 "a.tsx", utf8 "--max-depth=c"] (by decide)]
    decide

end CommandLine

end JsxPresence
