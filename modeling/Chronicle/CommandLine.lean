import Chronicle.Directory
import Chronicle.Document
import Chronicle.Text.Lines

/-!
The command line: the file of a problem, and options that take a value each. A value follows its
option as the next argument or after an equals sign, or directly after the short option. What is
printed depends on nothing but the arguments and the file.
-/

namespace Chronicle.CommandLine

inductive Flag where
  | horizon
  | atomLimit
  | modelLimit
  | timeLimit
  | logLevel
  deriving DecidableEq

def Flag.ofLong? : String → Option Flag
  | "horizon" => some horizon
  | "atom-limit" => some atomLimit
  | "model-limit" => some modelLimit
  | "time-limit" => some timeLimit
  | "log-level" => some logLevel
  | _ => none

def Flag.ofShort? : Char → Option Flag
  | 't' => some timeLimit
  | _ => none

/-- What an argument is, by its first characters. A lone hyphen is a value like any other. -/
inductive Argument where
  | value (text : String)
  | long (name : String) (attached : Option String)
  | short (name : Char) (attached : Option String)
  | separator

namespace Argument

def ofChars : List Char → Argument
  | ['-', '-'] => separator
  | '-' :: '-' :: cs =>
    let name := String.ofList (cs.takeWhile (· != '='))
    match cs.dropWhile (· != '=') with
    | _ :: v => long name (some (String.ofList v))
    | [] => long name none
  | '-' :: c :: '=' :: v => short c (some (String.ofList v))
  | ['-', c] => short c none
  | '-' :: c :: v => short c (some (String.ofList v))
  | cs => value (String.ofList cs)

def flag? : Argument → Option Flag
  | long name _ => Flag.ofLong? name
  | short name _ => Flag.ofShort? name
  | _ => none

def attached? : Argument → Option String
  | long _ v => v
  | short _ v => v
  | _ => none

end Argument

/-- The arguments sorted into options with their values, and other values. -/
structure Given where
  flags : List (Flag × String)
  values : List String

/-- Nothing, if an option is unknown or its value missing. -/
def sort : List String → Option Given
  | [] => some ⟨[], []⟩
  | arg :: rest =>
    match Argument.ofChars arg.toList with
    | .separator => some ⟨[], rest⟩
    | .value text => do
      let given ← sort rest
      return { given with values := text :: given.values }
    | named => do
      let flag ← named.flag?
      match named.attached?, rest with
      | some v, rest =>
        let given ← sort rest
        return { given with flags := (flag, v) :: given.flags }
      | none, next :: rest =>
        match Argument.ofChars next.toList with
        | .value v =>
          let given ← sort rest
          return { given with flags := (flag, v) :: given.flags }
        | _ => none
      | none, [] => none

structure Options where
  file : Option String
  horizon : Option Time
  atomLimit : Nat
  modelLimit : Nat
  timeLimit : Option Span

/-- The value of an option, given at most once. -/
def Given.value? (g : Given) (flag : Flag) : Option (Option String) :=
  match g.flags.filter (·.1 = flag) with
  | [] => some none
  | [(_, v)] => some (some v)
  | _ => none

def Given.read {α : Type} (g : Given) (flag : Flag) (parse : String → Option α) :
    Option (Option α) := do
  match ← g.value? flag with
  | none => some none
  | some v => (parse v).map some

/-- At most one file is given. -/
def Given.file? (g : Given) : Option (Option String) :=
  match g.values with
  | [] => some none
  | [path] => if path.isEmpty then none else some (some path)
  | _ => none

def parseTime (s : String) : Option Time := do
  let t ← Text.parseSigned s
  if Time.first ≤ t ∧ t ≤ Time.last then some t else none

def logLevels : List String := ["off", "error", "warn", "info", "debug", "trace"]

/-- The log level must be one of the known ones, and changes nothing that is reported here. -/
def Options.ofArgs (args : List String) : Option Options := do
  let given ← sort args
  let file ← given.file?
  let horizon ← given.read .horizon parseTime
  let atomLimit ← given.read .atomLimit Text.parseCount
  let modelLimit ← given.read .modelLimit Text.parseCount
  let seconds ← given.read .timeLimit Text.parseCount
  let _ ← given.read .logLevel fun s => if s ∈ logLevels then some s else none
  return {
    file := file
    horizon := horizon
    atomLimit := atomLimit.getD Limits.standard.atoms.value
    modelLimit := modelLimit.getD Limits.standard.models.value
    timeLimit := seconds.map (Span.ofSeconds · 0) }

def Options.limits (o : Options) : Except OutOfRange Limits := do
  let limits ← Limits.standard.setAtoms o.atomLimit
  let limits ← limits.setModels o.modelLimit
  match o.timeLimit with
  | some span => limits.setTime span
  | none => return limits

/-- What is printed, with a line end after each message, and the exit status. -/
structure Report where
  messages : List String
  status : Nat
  deriving DecidableEq

/-- The lines printed. A name with a line end in it spreads its message over more than one. -/
def Report.lines (r : Report) : List String := r.messages.flatMap Text.lines

def failure (status : Nat) (message : String) : Report := ⟨[message], status⟩

/-- Each query above its answer, numbered from one. -/
def answerMessages (qs : List Query) (answers : List Answer) : List String :=
  ((qs.zip answers).zipIdx 1).flatMap fun ((q, a), i) =>
    ["c q" ++ toString i ++ " " ++ q.render, "q" ++ toString i ++ " " ++ a.render]

def summary (b : Batch) (horizon : Time) : String :=
  "c " ++ toString b.scenario.fluents.size ++ " fluent(s), " ++
    toString b.scenario.statements.length ++ " statement(s), " ++
    toString b.queries.length ++ " query(s), to horizon " ++ toString horizon

def reportBatch (limits : Limits) (horizon : Option Time) (b : Batch) : Report :=
  let horizon := horizon.getD b.horizon
  match b.scenario.answer limits horizon b.queries with
  | .ok answers => ⟨summary b horizon :: answerMessages b.queries answers, 0⟩
  | .error e => ⟨[summary b horizon, "e " ++ e.message], 2⟩

def reportText (limits : Limits) (horizon : Option Time) (text : String) : Report :=
  match ((Problem.ofText text).mapError .parse).bind Problem.toBatch with
  | .ok b => reportBatch limits horizon b
  | .error e => failure 2 ("e " ++ e.message)

/-- What to do for given arguments: report at once, or read a file and report on what it holds, or
on why it cannot be read. -/
inductive Plan where
  | finish (r : Report)
  | read (path : String) (report : Except ReadError String → Report)

def plan (args : List String) : Plan :=
  match Options.ofArgs args with
  | none => .finish ⟨[], 2⟩
  | some o =>
    match o.limits with
    | .error e => .finish (failure 1 ("c Configuration error: " ++ e.message))
    | .ok limits =>
      match o.file with
      | none => .finish (failure 1 "c A problem file is required")
      | some path => .read path fun
        | .ok text => reportText limits o.horizon text
        | .error e => failure 1 ("c Unable to read " ++ path ++ ": " ++ e.message)

/-- The report made in a directory. -/
def run (place : Place) (args : List String) : Report :=
  match plan args with
  | .finish r => r
  | .read path report => report (place.read path)

end Chronicle.CommandLine
