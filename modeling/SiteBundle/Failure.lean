import SiteBundle.Disk.Basic
import SiteBundle.Fault
import SiteBundle.Family
import SiteBundle.Glob.Filter
import SiteBundle.Markup.Document

/-!
# Failures

A failure is a cause and what was being done when it arose, the outermost activity first.

* `Cause`              what went wrong;
* `Failure`            a cause in its context;
* `Failure.messages`   the activities and the cause in words, outermost first;
* `Failure.chain`      these in one line;
* `Failure.report`     these as a report of several lines.
-/

namespace SiteBundle

inductive Cause where
  /-- code cannot be read -/
  | code (family : Family) (fault : CodeFault)
  /-- an import names no file -/
  | unresolvedImport (specifier : Text) (importer : Place)
  /-- a module holds a statement that cannot be expressed -/
  | unsupportedStatement (file : Place) (statement : Text)
  /-- the file of a module cannot be read -/
  | unreadableModule (file : Place) (fault : DiskFault)
  /-- something that the bundler itself rules out -/
  | internal (what : String)
  /-- a module script refers to nothing that could be rolled up -/
  | noModuleSource (document : Text)
  | unknownNode (id : Nat)
  | stageOrder (stage next : Stage)
  /-- options are not valid TOML or hold a value of a wrong kind -/
  | unreadableOptions
  | disk (fault : DiskFault)
  /-- the output directory holds the source directory -/
  | wouldDeleteSource (dist : Place)
  | badPattern (b : BadPattern)
  /-- an offset falls inside a character, a range ends before its start, or a node is not there -/
  | outOfBounds

def shown (t : Text) : String := .ofList t

/-- a cause in words; some causes have a cause of their own, which follows them -/
def Cause.messages : Cause → List String
  | .code f fault =>
    let what := match f with
      | .script => "script"
      | .style => "stylesheet"
    ["syntax error in " ++ what ++ " at byte " ++ toString fault.offset ++ ": " ++
      fault.unclosed.message]
  | .unresolvedImport specifier importer =>
    ["cannot resolve import '" ++ shown specifier ++ "' from " ++ shown importer.text]
  | .unsupportedStatement file statement =>
    ["unsupported module syntax in " ++ shown file.text ++ ": " ++ shown statement]
  | .unreadableModule file fault => ["failed to read module " ++ shown file.text, fault.message]
  | .internal what => ["internal invariant violated: " ++ what]
  | .noModuleSource document =>
    ["module script in " ++ shown document ++ " has no resolvable source"]
  | .unknownNode id => ["file tree node " ++ toString id ++ " does not exist"]
  | .stageOrder stage next =>
    ["document stage " ++ stage.label ++ " cannot advance to " ++ next.label]
  | .unreadableOptions => ["not a TOML document with options of the right kinds"]
  | .disk fault => [fault.message]
  | .wouldDeleteSource dist =>
    ["refusing to replace " ++ shown dist.text ++ ": it contains the source directory"]
  | .badPattern b => b.messages
  | .outOfBounds => ["an offset or a node is out of bounds"]

/-- a cause and the activities it arose in, outermost first -/
structure Failure where
  context : List String
  cause : Cause

namespace Failure

def of (c : Cause) : Failure := ⟨[], c⟩

def within (activity : String) (f : Failure) : Failure := { f with context := activity :: f.context }

def messages (f : Failure) : List String := f.context ++ f.cause.messages

def chain (f : Failure) : String := ": ".intercalate f.messages

/-- a cause in a report: its lead, and its later lines indented -/
def causeText (lead later : String) (m : String) : String :=
  lead ++ ("\n" ++ later).intercalate (m.splitOn "\n")

/-- the lead of a numbered cause, its number flush right in five columns -/
def numberLead (n : Nat) : String :=
  let digits := toString n
  .ofList (List.replicate (5 - digits.length) ' ') ++ digits ++ ": "

/-- the causes of a report, numbered when there are several -/
def causeLines : List String → List String
  | [] => []
  | [m] => [causeText "    " "    " m]
  | ms => ms.zipIdx.map fun m => causeText (numberLead m.2) "       " m.1

/-- the outermost message, and under it what caused it -/
def report (f : Failure) : String :=
  match f.messages with
  | [] => "Error: "
  | [m] => "Error: " ++ m
  | m :: causes => "\n".intercalate (["Error: " ++ m, "", "Caused by:"] ++ causeLines causes)

end Failure

def during {α : Type} (activity : String) : Except Failure α → Except Failure α
  | .ok a => .ok a
  | .error f => .error (f.within activity)

def onDisk {α : Type} : Except DiskFault α → Except Failure α
  | .ok a => .ok a
  | .error f => .error (.of (.disk f))

end SiteBundle
