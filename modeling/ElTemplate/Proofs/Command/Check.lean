import ElTemplate.Command.Run
import ElTemplate.Proofs.Cache.Transparency
import ElTemplate.Proofs.Settings.Environment
import ElTemplate.Proofs.Template.Literal
import ElTemplate.Proofs.Template.Position

/-!
# Checking many expressions is checking each

The store that the expressions of a command line share does not show in the reports: each is the one
that the expression has by itself, wherever it stands and however often. So the output of a command
line is put together from those of its expressions, and its exit code tells whether one of them
fails. The caret of a failing one stands under a place of the expression.
-/

namespace ElTemplate

namespace Store

variable {s : Store}

/-- Reports on a run of expressions are those that the builder alone would lead to. -/
theorem Coherent.checkAll (h : s.Coherent) (sources : List String) :
    CommandLine.checkAll s sources =
      (String.join (sources.map fun source => CommandLine.report source (s.build source)),
        sources.countP fun source => !(s.build source).isOk) := by
  induction sources generalizing s with
  | nil => rfl
  | cons source sources ih =>
    obtain ⟨compiled, next⟩ := h.compile source
    have further := ih next
    rw [compile_build] at further
    have step : s.compile source = (s.build source, (s.compile source).2) := Prod.ext compiled rfl
    rw [CommandLine.checkAll, step]
    dsimp only
    rw [further, List.map_cons, String.join_cons, List.countP_cons]
    cases (s.build source).isOk <;> rfl

end Store

namespace Settings

variable {s : Settings}

theorem ne_zero_of_ofYaml {format : Format} {text : String} (read : ofYaml format text = .ok s) :
    s.cacheCapacity ≠ 0 := by
  rw [ofYaml] at read
  split at read
  · cases read
  · split at read
    · next valid =>
      cases read
      obtain ⟨rfl, positive⟩ := validate_eq_ok_iff.mp valid
      exact positive
    · cases read

/-- No command runs under settings without room. -/
theorem ne_zero_of_invocation {host : CommandLine.Host} {i : CommandLine.Invocation}
    (configured : i.settings host = .ok s) : s.cacheCapacity ≠ 0 := by
  rw [CommandLine.Invocation.settings] at configured
  split at configured
  · rw [load.eq_def] at configured
    split at configured
    · exact ne_zero_of_ofYaml configured
    · cases configured
  · split at configured
    · next read =>
      cases configured
      exact (ofEnvironment_eq_ok_iff.mp read).2
    · cases configured

end Settings

namespace CommandLine

variable {host : Host} {configFile : Option String} {settings : Settings}
  {arguments expressions : List String}

/-- A command line that checks the expressions, whatever they begin with, under the configuration
file. -/
def checkLine (configFile : Option String) (expressions : List String) : List String :=
  (configFile.map ("--config=" ++ ·)).toList ++ "check" :: "--" :: expressions

/-- What stands behind the two dashes of a command line is taken for expressions as it is. -/
def Host.TakesExpressions (host : Host) : Prop :=
  ∀ (configFile : Option String) (expressions : List String), expressions ≠ [] →
    host.understand (checkLine configFile expressions) = .ok ⟨configFile, .check expressions⟩

section Understanding

theorem ofString_config (path : String) :
    Argument.ofString ("--config=" ++ path) = .config (some path) := by
  have spelled : ("--config=" ++ path).toList = "--config=".toList ++ path.toList :=
    String.toList_append
  simp [Argument.ofString, spelled]

theorem ofArguments?_checkLine (configFile : Option String) (filled : expressions ≠ []) :
    Invocation.ofArguments? none (checkLine configFile expressions) =
      some ⟨configFile, .check expressions⟩ := by
  have command (configFile : Option String) :
      Invocation.ofArguments? configFile ("check" :: "--" :: expressions) =
        some ⟨configFile, .check expressions⟩ := by
    have check : Argument.ofString "check" = .operand "check" := by decide
    have separator : Argument.ofString "--" = .separator := by decide
    have level : readLevel? none ("--" :: expressions) = some ⟨none, expressions⟩ := by
      rw [readLevel?.eq_def]
      simp only [separator]
    simp [Invocation.ofArguments?, level, check, Command.ofOperands?, filled]
  cases configFile with
  | none => exact command none
  | some path =>
    rw [checkLine]
    change Invocation.ofArguments? none
      (("--config=" ++ path) :: "check" :: "--" :: expressions) = _
    rw [Invocation.ofArguments?, ofString_config]
    exact command (some path)

/-- The reader of arguments of this library takes expressions. -/
theorem understand_checkLine (configFile : Option String) (filled : expressions ≠ []) :
    understand (checkLine configFile expressions) = .ok ⟨configFile, .check expressions⟩ := by
  rw [understand, ofArguments?_checkLine configFile filled]

end Understanding

section Reports

variable {features : FeatureSet} {source : String} {t : Template} {e : CompileError}

theorem textLine_root (compiled : Template.compile features source = .ok t) : textLine t.root =
    if t.isLiteralText then ["  text:         " ++ Text.unescapeString source] else [] := by
  cases literal : t.isLiteralText with
  | true =>
    have sealed := Template.sealed_of_compile compiled literal
    cases (Template.compile_of_sealed sealed).symm.trans compiled
    rfl
  | false =>
    rw [Template.isLiteralText] at literal
    cases root : t.root with
    | text raw =>
      rw [root] at literal
      cases literal
    | _ => rfl

/-- What is reported of an expression that compiles. The meaning of the source is reported exactly
if it is a literal text, and the names exactly if there are any. -/
theorem report_of_ok (compiled : Template.compile features source = .ok t) :
    report source (.ok t) = unlines (
      [source, "  canonical:    " ++ t.canonical, "  literal text: " ++ toString t.isLiteralText,
        "  deferred:     " ++ toString t.deferred,
        "  left value:   " ++ toString t.isAssignable] ++
      (if t.isLiteralText then ["  text:         " ++ Text.unescapeString source] else []) ++
      (if t.identifiers = [] then []
        else ["  identifiers:  " ++ ", ".intercalate t.identifiers]) ++
      if t.functions = [] then []
        else ["  functions:    " ++ ", ".intercalate (t.functions.map CallSite.qualifiedName)]) := by
  rw [report, describe, textLine_root compiled, listLine, listLine]
  simp

/-- What is reported of an expression that does not compile. The caret stands behind as many spaces
as there are characters before the place of the error, which is a place of the expression. -/
theorem report_of_error (failed : Template.compile features source = .error e) :
    ∃ before, e.Stands source.toList before ∧ before.length ≤ source.length ∧
      report source (.error e) = unlines
        [source, String.ofList (List.replicate before.length ' ') ++ "^",
          "  error: " ++ e.message] := by
  obtain ⟨before, stands⟩ := Template.exists_stands failed
  refine ⟨before, stands, stands.isPrefix.length_le, ?_⟩
  rw [report, describeError, stands.position]

end Reports

theorem countP_fails_eq_zero_iff {build : String → Except CompileError Template} :
    (expressions.countP fun source => !(build source).isOk) = 0 ↔
      ∀ source ∈ expressions, ∃ t, build source = .ok t := by
  simp only [List.countP_eq_zero]
  refine forall₂_congr fun source _ => ?_
  cases build source <;> simp [Except.isOk, Except.toBool]

theorem exists_error_iff {build : String → Except CompileError Template} :
    (∃ source ∈ expressions, ∃ e, build source = .error e) ↔
      ¬ ∀ source ∈ expressions, ∃ t, build source = .ok t := by
  simp only [not_forall, exists_prop]
  refine exists_congr fun source => and_congr_right fun _ => ?_
  cases build source <;> simp

section Run

variable (understood : host.understand arguments = .ok ⟨configFile, .check expressions⟩)
  (configured : Invocation.settings host ⟨configFile, .check expressions⟩ = .ok settings)

include understood configured

theorem run_eq : run host arguments = Command.run host settings (.check expressions) := by
  simp only [run, understood, configured]

/-- The outcome of checking is made of the reports by themselves. -/
theorem run_of_le (few : settings.concurrency ≤ 2 ^ 63)
    {compiled : String → Except CompileError Template}
    (compiles : compiled = Template.compile (.ofList settings.features)) :
    (run host arguments).output =
        String.join (expressions.map fun source => report source (compiled source)) ∧
      ((run host arguments).code = 1 ↔ ∃ source ∈ expressions, ∃ e, compiled source = .error e) ∧
      ((run host arguments).code = 0 ↔ ∀ source ∈ expressions, ∃ t, compiled source = .ok t) := by
  have room := Nat.pos_of_ne_zero (Settings.ne_zero_of_invocation configured)
  obtain ⟨store, made⟩ := (Store.exists_ofSettings_iff host.hash room).mpr few
  obtain ⟨build, coherent⟩ := Store.coherent_of_ofSettings room made
  have reports := coherent.checkAll expressions
  rw [build, ← compiles] at reports
  rw [run_eq understood configured, Command.run, made]
  dsimp only
  rw [reports, exists_error_iff, ← countP_fails_eq_zero_iff]
  dsimp only
  have other : (0 : UInt32) ≠ 1 := by decide
  split
  · next none => exact ⟨rfl, iff_of_false other (not_not_intro none), iff_of_true rfl none⟩
  · next some => exact ⟨rfl, iff_of_true rfl some, iff_of_false other.symm some⟩

/-- Nothing is checked for too many callers. -/
theorem run_of_lt (many : 2 ^ 63 < settings.concurrency) : run host arguments = .overflow := by
  have room := Nat.pos_of_ne_zero (Settings.ne_zero_of_invocation configured)
  rw [run_eq understood configured, Command.run, Store.ofSettings_of_lt room many]

end Run

/-- For up to `2 ^ 63` callers, a command line that checks expressions prints what those that check
each of them by itself print, and that is the report on the expression under the features. It ends
with one just if some expression fails. For more callers nothing is printed, as the number of cache
segments overflows. The report on an expression that compiles tells its properties; the caret of one
that does not stands behind as many spaces as there are characters before the place of the error,
which is a place of the expression. -/
theorem run_check (host : Host) (positional : host.TakesExpressions)
    (understood : host.understand arguments = .ok ⟨configFile, .check expressions⟩)
    (configured : Invocation.settings host ⟨configFile, .check expressions⟩ = .ok settings) :
    let ran := run host
    let compiled := Template.compile (.ofList settings.features)
    (settings.concurrency ≤ 2 ^ 63 →
      (ran arguments).output =
        String.join (expressions.map fun source => (ran (checkLine configFile [source])).output) ∧
      (∀ source ∈ expressions, ∀ line,
        host.understand line = .ok ⟨configFile, .check [source]⟩ →
        (ran line).output = report source (compiled source)) ∧
      ((ran arguments).code = 1 ↔ ∃ source ∈ expressions, ∃ e, compiled source = .error e) ∧
      ((ran arguments).code = 0 ↔ ∀ source ∈ expressions, ∃ t, compiled source = .ok t)) ∧
    (2 ^ 63 < settings.concurrency → (ran arguments).output = "" ∧ (ran arguments).code = 101) ∧
    (∀ source ∈ expressions, ∀ t, compiled source = .ok t →
      report source (compiled source) = unlines (
        [source, "  canonical:    " ++ t.canonical, "  literal text: " ++ toString t.isLiteralText,
          "  deferred:     " ++ toString t.deferred,
          "  left value:   " ++ toString t.isAssignable] ++
        (if t.isLiteralText then ["  text:         " ++ Text.unescapeString source] else []) ++
        (if t.identifiers = [] then []
          else ["  identifiers:  " ++ ", ".intercalate t.identifiers]) ++
        if t.functions = [] then []
          else ["  functions:    " ++ ", ".intercalate (t.functions.map CallSite.qualifiedName)])) ∧
    ∀ source ∈ expressions, ∀ e, compiled source = .error e →
      ∃ before, e.Stands source.toList before ∧ before.length ≤ source.length ∧
        report source (compiled source) = unlines
          [source, String.ofList (List.replicate before.length ' ') ++ "^",
            "  error: " ++ e.message] := by
  intro ran compiled
  refine ⟨fun few => ?_, fun many => ?_, fun source _ t accepted => ?_, fun source _ e failed => ?_⟩
  · obtain ⟨output, fails, succeeds⟩ := run_of_le understood configured few rfl
    have single (source : String) (line : List String)
        (understood : host.understand line = .ok ⟨configFile, .check [source]⟩) :
        (ran line).output = report source (compiled source) := by
      obtain ⟨output, -⟩ := run_of_le understood configured few rfl
      simpa using output
    refine ⟨?_, fun source _ => single source, fails, succeeds⟩
    refine output.trans (congrArg String.join (List.map_congr_left fun source _ => ?_))
    exact (single source _ (positional configFile [source] (List.cons_ne_nil _ _))).symm
  · rw [show ran arguments = .overflow from run_of_lt understood configured many]
    exact ⟨rfl, rfl⟩
  · rw [accepted]
    exact report_of_ok accepted
  · rw [failed]
    exact report_of_error failed

/-- A block that is left open fails before and behind a text, at the end of the source. One more
caller than can be rounded up to a power of two leaves nothing of the reports. -/
theorem run_check_unclosed :
    let expressions := ["$\x7b", "a", "$\x7b"]
    let arguments := "check" :: expressions
    let host (concurrency : Option String) : Host :=
      ⟨String.length, fun key => if key = "EL_CACHE_CONCURRENCY" then concurrency else none,
        fun _ => none, understand, .yaml⟩
    (∀ concurrency, (host concurrency).TakesExpressions) ∧
    understand arguments = .ok ⟨none, .check expressions⟩ ∧
    Invocation.settings (host none) ⟨none, .check expressions⟩ = .ok .default ∧
    (run (host none) arguments).output =
      String.join (expressions.map fun source =>
        (run (host none) (checkLine none [source])).output) ∧
    (run (host none) arguments).code = 1 ∧
    (∃ before, CompileError.Stands "$\x7b".toList before
      (.parse ⟨⟨.eof, "", 2⟩, .oneOf Expectation.operandStart⟩) ∧ before.length ≤ 2) ∧
    Invocation.settings (host "9223372036854775809") ⟨none, .check expressions⟩ =
      .ok ⟨1000, 2 ^ 63 + 1, []⟩ ∧
    (run (host "9223372036854775809") arguments).output = "" ∧
    (run (host "9223372036854775809") arguments).code = 101 := by
  intro expressions arguments host
  have positional (concurrency : Option String) : (host concurrency).TakesExpressions :=
    fun configFile _ filled => understand_checkLine configFile filled
  have read : understand arguments = .ok ⟨none, .check expressions⟩ := by decide +kernel
  have understood (concurrency : Option String) :
      (host concurrency).understand arguments = .ok ⟨none, .check expressions⟩ := read
  have configured : Invocation.settings (host none) ⟨none, .check expressions⟩ = .ok .default := rfl
  have crowded : Invocation.settings (host "9223372036854775809") ⟨none, .check expressions⟩ =
      .ok ⟨1000, 2 ^ 63 + 1, []⟩ := by decide +kernel
  have failed : Template.compile (.ofList Settings.default.features) "$\x7b" =
      .error (.parse ⟨⟨.eof, "", 2⟩, .oneOf Expectation.operandStart⟩) := rfl
  obtain ⟨few, -, -, places⟩ := run_check (host none) (positional _) (understood _) configured
  obtain ⟨output, -, fails, -⟩ := few (by decide)
  obtain ⟨before, stands, bound, -⟩ := places "$\x7b" (by decide) _ failed
  obtain ⟨-, many, -⟩ := run_check (host _) (positional _) (understood _) crowded
  exact ⟨positional, read, configured, output, fails.mpr ⟨"$\x7b", by decide, _, failed⟩,
    ⟨before, stands, bound⟩, crowded, many (by decide)⟩

end CommandLine

end ElTemplate
