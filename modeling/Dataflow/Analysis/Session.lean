import Dataflow.Analysis.Kind

/-!
# Sessions

A session remembers outputs, so that an analysis that was asked for before is not run again.
Outputs are filed under the kind that was asked for and the name of the function.  A function that
changes must be forgotten by name.

* `Pass`: an analysis and the kind under which its outputs are filed.
* `Session.request`: an output, remembered or new.
* `Session.invalidate`: forgets a function.
* `Session.statistics`: the work done, one entry per run.
-/

namespace Dataflow

/-- An analysis and the kind under which its outputs are filed. -/
structure Pass where
  analysis : Kind
  filed : Kind
deriving DecidableEq

namespace Pass

/-- The analysis under its own kind. -/
def ofKind (kind : Kind) : Pass := ⟨kind, kind⟩

/-- An analysis filed under any kind.  Counts are always filed as counts. -/
def filedAs (analysis filed : Kind) : Pass :=
  if analysis = .counts then ofKind .counts else ⟨analysis, filed⟩

/-- What the pass does, by the kind under which it is filed. -/
def description (p : Pass) : String :=
  if p.analysis = .counts then "Static instruction counts per opcode"
  else match p.filed with
    | .reaching => "Forward may-reach definitions, union only"
    | .liveness => "Backward live instruction results"
    | .mayPointTo => "Forward may-point-to over register and memory cells"
    | .counts => "Dataflow pass"

end Pass

/-- The record of one run. -/
structure Statistic where
  name : String
  function : String
  stats : SolveStats
deriving DecidableEq

/-- Outputs remembered so far. -/
structure Session where
  cache : List ((Kind × String) × Output)
  statistics : List Statistic
  /-- Runs are recorded. -/
  recording : Bool

namespace Session

/-- A session that remembers nothing and records nothing. -/
def empty : Session where
  cache := []
  statistics := []
  recording := false

/-- Records runs from now on. -/
def enableStatistics (s : Session) : Session :=
  { s with recording := true }

/-- An output is filed under a kind and a name, as a test. -/
def isCached (s : Session) (kind : Kind) (function : String) : Bool :=
  (s.cache.lookup (kind, function)).isSome

/-- Forgets a function. -/
def invalidate (s : Session) (function : String) : Session :=
  { s with cache := s.cache.filter (·.1.2 ≠ function) }

/-- The filed output, if it is of the shape that the pass gives. -/
def cached? (s : Session) (p : Pass) (f : Function) : Option Output :=
  (s.cache.lookup (p.filed, f.name)).filter p.analysis.gives

/-- Files an output in place of what was filed there. -/
def file (s : Session) (p : Pass) (f : Function) (output : Output) : Session :=
  { s with cache := ((p.filed, f.name), output) :: s.cache.filter (·.1 ≠ (p.filed, f.name)) }

/-- Records a run, if runs are recorded. -/
def record (s : Session) (p : Pass) (f : Function) (output : Output) : Session :=
  if s.recording then
    { s with statistics := s.statistics ++ [⟨p.analysis.name, f.name, output.stats⟩] }
  else s

/-- The output of a pass on a function: the remembered one, or a new one that is remembered from now
on. -/
def request (s : Session) (p : Pass) (f : Function) : Output × Session :=
  match s.cached? p f with
  | some output => (output, s)
  | none =>
    let output := p.analysis.analyze f
    (output, (s.record p f output).file p f output)

/-- The outputs of a pass on functions, one after another. -/
def requestAll (s : Session) (p : Pass) : List Function → List Output × Session
  | [] => ([], s)
  | f :: rest =>
    let (output, s) := s.request p f
    let (outputs, s) := s.requestAll p rest
    (output :: outputs, s)

/-- The outputs of a pass on a module, under the keys of its functions. -/
def requestModule (s : Session) (p : Pass) (m : Module) : List (String × Output) × Session :=
  let (outputs, s) := s.requestAll p m.functions.values
  (m.functions.keys.zip outputs, s)

end Session

/-- The outputs of a pass on a module, without a session. -/
def Pass.analyzeModule (p : Pass) (m : Module) : List (String × Output) :=
  m.functions.entries.map fun e => (e.1, p.analysis.analyze e.2)

end Dataflow
