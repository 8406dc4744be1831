import Spool.Bindings
import Spool.Id
import Spool.Native
import Spool.Tape.Check

/-!
# The registry

All classes, functions and modules of a machine. Entries are never removed; a class may change its
superclass. Methods belong to their class, other functions to their module.
-/

namespace Spool

/-- The payload a new object of a class starts with. -/
inductive Seed where
  | plain
  | text
  | array
  | tuple
  | process
  deriving DecidableEq, Repr, Inhabited

/-- What happens at the two ends of an object's life. -/
structure Hooks where
  onCreate : Option Seed := none
  onDelete : Bool := false
  deriving DecidableEq, Repr, Inhabited

structure Class where
  name : String
  module : ModuleId
  superclass : Option ClassId := none
  fields : List String := []
  hooks : Hooks := {}
  methods : Bindings String FunctionId := {}
  deriving Inhabited

inductive FunctionKind where
  /-- Instructions from a position of the module's tape on. -/
  | user (start : Nat)
  | native (body : Native)
  | background (body : Background)
  deriving DecidableEq, Repr, Inhabited

structure Function where
  name : String
  module : ModuleId
  kind : FunctionKind
  flags : Flags := {}
  owner : Option ClassId := none
  deriving Inhabited

namespace Function

def isNative (f : Function) : Bool :=
  match f.kind with
  | .user _ => false
  | _ => true

end Function

structure Module where
  name : String
  tape : Tape := {}
  classes : Array ClassId := #[]
  functions : Bindings String FunctionId := {}
  deriving Inhabited

structure Registry where
  classes : Array Class := #[]
  functions : Array Function := #[]
  modules : Array Module := #[]
  deriving Inhabited

namespace Registry

def classAt (r : Registry) (c : ClassId) : Class := r.classes.getD c.index default

def functionAt (r : Registry) (f : FunctionId) : Function := r.functions.getD f.index default

def moduleAt (r : Registry) (m : ModuleId) : Module := r.modules.getD m.index default

def className (r : Registry) (c : ClassId) : String := (r.classAt c).name

def moduleNamed? (r : Registry) (name : String) : Option ModuleId :=
  (r.modules.findIdx? fun m => m.name = name).map ModuleId.mk

/-- The first class of a module with a name. -/
def classNamed? (r : Registry) (m : ModuleId) (name : String) : Option ClassId :=
  (r.moduleAt m).classes.find? fun c => r.className c = name

def ownMethod? (r : Registry) (c : ClassId) (name : String) : Option FunctionId :=
  (r.classAt c).methods.get? name

/-! ## Adding entries -/

def addModule (r : Registry) (name : String) (tape : Tape) : Except HostError (ModuleId × Registry) :=
  match r.moduleNamed? name with
  | some _ => .error (.duplicateModule name)
  | none => .ok (⟨r.modules.size⟩, { r with modules := r.modules.push { name, tape } })

def addClass (r : Registry) (c : Class) : ClassId × Registry :=
  let id : ClassId := ⟨r.classes.size⟩
  (id, { r with
    classes := r.classes.push c
    modules := r.modules.modify c.module.index fun m => { m with classes := m.classes.push id } })

/-- Flags that follow from where a function's body runs. -/
def impliedFlags : FunctionKind → Flags
  | .user _ => {}
  | .native _ => { native := true }
  | .background _ => { native := true, background := true }

def addFunction (r : Registry) (f : Function) : FunctionId × Registry :=
  let id : FunctionId := ⟨r.functions.size⟩
  let f := { f with flags := f.flags.union (impliedFlags f.kind) }
  let r := { r with functions := r.functions.push f }
  match f.owner with
  | some c =>
    (id, { r with
      classes := r.classes.modify c.index fun c => { c with methods := c.methods.insert f.name id } })
  | none =>
    (id, { r with
      modules := r.modules.modify f.module.index fun m =>
        { m with functions := m.functions.insert f.name id } })

/-!
## The class hierarchy

Every class has at most one superclass, and the chain of superclasses never comes back to a class. Method
lookup and the test for inheritance walk that chain.
-/

/-- The first classes of the chain that starts at a class, as many as there is fuel for. -/
def chainFrom (r : Registry) : (fuel : Nat) → ClassId → List ClassId
  | 0, _ => []
  | fuel + 1, c =>
    match (r.classAt c).superclass with
    | some s => c :: r.chainFrom fuel s
    | none => [c]

/-- A class, its superclass and so on; without a cycle no chain is longer than there are classes. -/
def chain (r : Registry) (c : ClassId) : List ClassId := r.chainFrom (r.classes.size + 1) c

def inherits (r : Registry) (c ancestor : ClassId) : Bool := (r.chain c).elem ancestor

/-- The method of the nearest class on the chain that has one of its own. -/
def findMethod? (r : Registry) (c : ClassId) (name : String) : Option FunctionId :=
  (r.chain c).findSome? fun c => r.ownMethod? c name

def setSuperclass (r : Registry) (c s : ClassId) : Registry :=
  { r with classes := r.classes.modify c.index fun c => { c with superclass := some s } }

/-- Changes the superclass of a class unless that would close a cycle. -/
def rebase (r : Registry) (c s : ClassId) : Except HostError Registry :=
  if r.inherits s c then .error (.inheritanceCycle (r.className c)) else .ok (r.setSuperclass c s)

end Registry

end Spool
