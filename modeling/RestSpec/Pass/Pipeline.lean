/-
Passes by name, and lists of passes that are run one after the other.
-/
import RestSpec.Error
import RestSpec.Pass.Merge
import RestSpec.Pass.Inheritance
import RestSpec.Pass.Payload

namespace RestSpec

/-- The passes over documents that can be asked for. -/
inductive Pass where
  | removeUnused
  | collapseDuplicates
  | singleParent
  | replaceEmpty
  | wrapPayload
  | sortModels
  | security
  deriving DecidableEq, Repr

namespace Pass

/-- Every `Pass`, in the order in which `ofName` looks for a name. -/
def all : List Pass :=
  [removeUnused, collapseDuplicates, singleParent, replaceEmpty, wrapPayload, sortModels, security]

/-- The name that a pass is asked for by. -/
def name : Pass → String
  | removeUnused => "remove-unused"
  | collapseDuplicates => "collapse-duplicates"
  | singleParent => "single-parent"
  | replaceEmpty => "replace-empty"
  | wrapPayload => "wrap-payload"
  | sortModels => "sort-models"
  | security => "security"

/-- The pass of a name, in any case. -/
def ofName (s : String) : Except ConfigError Pass :=
  match all.find? fun p => p.name == s.map Char.toLower with
  | some p => .ok p
  | none => .error (.unknownPass s)

/-- The passes that run unless others are asked for. -/
def defaultPasses : List Pass :=
  [removeUnused, collapseDuplicates, replaceEmpty, removeUnused, sortModels]

/-- One pass; `security` asks for what is given, or for a password. -/
def run (asked : Option Security) (doc : Document) : Pass → Document
  | removeUnused => doc.removeUnused
  | collapseDuplicates => doc.collapseDuplicates
  | singleParent => doc.singleParent
  | replaceEmpty => doc.replaceEmpty
  | wrapPayload => doc.wrapPayloads
  | sortModels => doc.sortParents
  | security => doc.requireSecurity (asked.getD .basic)

/-- Runs passes one after the other by `run`; a pass may be listed more than once. -/
def runAll (asked : Option Security) (passes : List Pass) (doc : Document) : Document :=
  passes.foldl (run asked) doc

end Pass

end RestSpec
