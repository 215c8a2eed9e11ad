import ContentSchema.Entries
import ContentSchema.FilePath.Template
import ContentSchema.FileTree

/-!
# Hosts

What a command asks of the machine it runs on: variables of the environment, and files.  A
`Machine` answers from a file tree, so that a run of a command is a function.
-/

namespace ContentSchema

class Host (m : Type → Type) where
  getVariable? (name : String) : m (Option String)
  isPresent (path : String) : m Bool
  read (path : String) : m (Except FileError String)
  /-- Paths of the files directly in a directory; none if there is no such directory. -/
  filesIn (path : String) : m (List String)
  /-- Make an empty file in the place of any other. -/
  create (path : String) : m (Except FileError Unit)

instance {ε : Type} {m : Type → Type} [Monad m] [Host m] : Host (ExceptT ε m) where
  getVariable? name := ExceptT.lift (Host.getVariable? name)
  isPresent path := ExceptT.lift (Host.isPresent path)
  read path := ExceptT.lift (Host.read path)
  filesIn path := ExceptT.lift (Host.filesIn path)
  create path := ExceptT.lift (Host.create path)

structure Machine where
  files : FileTree
  environment : Entries String

instance : Host (StateM Machine) where
  getVariable? name := return (← get).environment.get? name
  isPresent path := return (← get).files.isPresent path
  read path := return (← get).files.read path
  filesIn path := return (← get).files.filesIn path
  create path := do
    match (← get).files.create path with
    | .ok files => modifyGet fun machine => (.ok (), { machine with files := files })
    | .error e => return .error e

namespace Host

variable {m : Type → Type} [Monad m] [Host m]

/-- The directory that a tilde stands for. -/
def home : m String := return (← Host.getVariable? "HOME").getD "~"

/-- The path a template stands for; none if a variable is neither set nor has a default. -/
def expand (template : String) : m (Option String) := do
  let texts ← (FilePath.Template.pieces template.toList).mapM fun piece => do
    match piece with
    | .char _ => return FilePath.Template.fill? none piece
    | .variable name _ => return FilePath.Template.fill? (← Host.getVariable? name) piece
  let home ← home
  return (texts.mapM id).map fun texts =>
    FilePath.Template.expandHome home template (Text.join "" texts)

end Host

end ContentSchema
