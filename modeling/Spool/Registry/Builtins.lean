import Spool.Registry.Basic

/-!
# Builtins

The module that every other module can see: the core classes with their native methods, and the free
functions. A registry starts with it, so the core classes have fixed identities.
-/

namespace Spool

def ModuleId.builtins : ModuleId := ⟨0⟩

namespace ClassId

def object : ClassId := ⟨0⟩
def metaclass : ClassId := ⟨1⟩
def module : ClassId := ⟨2⟩
def function : ClassId := ⟨3⟩
def functionRef : ClassId := ⟨4⟩
def int : ClassId := ⟨5⟩
def float : ClassId := ⟨6⟩
def char : ClassId := ⟨7⟩
def string : ClassId := ⟨8⟩
def array : ClassId := ⟨9⟩
def tuple : ClassId := ⟨10⟩
def error : ClassId := ⟨11⟩
def stackLine : ClassId := ⟨12⟩
def future : ClassId := ⟨13⟩
def task : ClassId := ⟨14⟩
def context : ClassId := ⟨15⟩
def process : ClassId := ⟨16⟩
def remote : ClassId := ⟨17⟩

end ClassId

namespace Builtins

/-- The core classes in the order of their identities; all but the first are subclasses of the first. -/
def classes : List (String × List String × Hooks) :=
  [("Object", [], {}),
    ("Class", [], {}),
    ("Module", [], {}),
    ("Function", [], {}),
    ("FunctionRef", [], {}),
    ("Int", [], {}),
    ("Float", [], {}),
    ("Char", [], {}),
    ("String", [], { onCreate := some .text }),
    ("Array", [], { onCreate := some .array }),
    ("Tuple", [], { onCreate := some .tuple }),
    ("Error", ["message", "stacktrace"], {}),
    ("StackLine", ["module", "function", "line", "col", "text"], {}),
    ("Future", [], {}),
    ("Task", [], {}),
    ("Context", [], {}),
    ("Process", [], { onCreate := some .process, onDelete := true }),
    ("Remote", [], {})]

/-- The functions in the order of their identities, each with the class it is a method of. -/
def functions : List (Option ClassId × String × FunctionKind × Flags) :=
  [(none, "print", .native .print, {}),
    (none, "println", .native .println, {}),
    (none, "errorln", .native .errorln, {}),
    (none, "str", .native .str, {}),
    (none, "len", .native .len, {}),
    (none, "$__set_super", .native .setSuper, {}),
    (none, "sleep", .background .sleep, { async := true }),
    (none, "remote", .native .remote, {}),
    (none, "current_task", .native .currentTask, {}),
    (none, "current_context", .native .currentContext, {}),
    (some .string, "len", .native .ownLen, {}),
    (some .string, "concat", .native .concat, {}),
    (some .array, "len", .native .ownLen, {}),
    (some .array, "push", .native .arrayPush, {}),
    (some .array, "pop", .native .arrayPop, {}),
    (some .tuple, "len", .native .ownLen, {}),
    (some .error, "new", .native .errorNew, {}),
    (some .future, "is_complete", .native .futureIsComplete, {}),
    (some .future, "get", .native .futureGet, {}),
    (some .task, "id", .native .taskId, {}),
    (some .task, "state", .native .taskState, {}),
    (some .context, "module", .native .contextModule, {}),
    (some .context, "function", .native .contextFunction, {}),
    (some .process, "new", .native .processNew, {}),
    (some .process, "start", .native .processStart, {}),
    (some .process, "id", .native .processNumber, {}),
    (some .remote, "get", .background .remoteGet, {})]

end Builtins

namespace Registry

/-- Adds native functions to a module. -/
def addNatives (r : Registry) (module : ModuleId)
    (functions : List (Option ClassId × String × FunctionKind × Flags)) : Registry :=
  functions.foldl
    (fun r (owner, name, kind, flags) => (r.addFunction { name, module, kind, flags, owner }).2) r

/-- The registry that holds the builtins and nothing else. -/
def initial : Registry :=
  let r : Registry := { modules := #[{ name := "builtins" }] }
  let r := Builtins.classes.foldl
    (fun r (name, fields, hooks) =>
      let superclass := if r.classes.isEmpty then none else some ClassId.object
      (r.addClass { name, module := .builtins, superclass, fields, hooks }).2) r
  r.addNatives .builtins Builtins.functions

/-!
## The host module

A module of functions that exercise the machine from the outside: background calls that return, fail and
break down, tuples, lost remote objects, and collections on demand.
-/

def hostFunctions (job : ClassId) : List (Option ClassId × String × FunctionKind × Flags) :=
  [(none, "wrap", .background .wrap, {}),
    (none, "wrap_async", .background .wrap, { async := true }),
    (none, "echo", .background .echo, {}),
    (none, "fail", .background .fail, {}),
    (none, "fail_async", .background .fail, { async := true }),
    (none, "panic", .background .crash, {}),
    (none, "pair", .native .pair, {}),
    (none, "lost", .native .lost, {}),
    (none, "collect", .native .collect, {}),
    (some job, "new", .background .echo, {}),
    (some job, "pair", .native .pair, {})]

/-- Adds the host module to a registry that has no module of that name. -/
def addHostModule (r : Registry) : Registry :=
  match r.addModule "host" {} with
  | .ok (module, r) =>
    let (job, r) := r.addClass { name := "Job", module, superclass := some .object }
    r.addNatives module (hostFunctions job)
  | .error _ => r

end Registry

end Spool
