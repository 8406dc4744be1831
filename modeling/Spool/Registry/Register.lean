import Spool.Registry.Basic

/-!
# Registering compiled modules

A compiled module is checked and then entered piece by piece: the module, its classes, their
superclasses, its functions. A failure ends the work and leaves the pieces already entered.
-/

namespace Spool.Registry

abbrev Entry := ExceptT HostError (StateM Registry)

/-- Every class starts out under the root. -/
def enterClasses (module : ModuleId) (root : ClassId) (defs : List ClassDef) : StateM Registry (List ClassId) :=
  defs.mapM fun d => modifyGet fun r =>
    r.addClass { name := d.name, module, superclass := some root, fields := d.fields }

/-- A superclass is looked for in the module itself, then in the builtins. -/
def superNamed? (r : Registry) (module : ModuleId) (builtins : Option ModuleId) (name : String) :
    Option ClassId :=
  r.classNamed? module name <|> builtins.bind fun b => r.classNamed? b name

def wireSuperclass (module : ModuleId) (builtins : Option ModuleId) (d : ClassDef) (c : ClassId) : Entry Unit := do
  match d.superName with
  | none => return
  | some superName =>
    let r ← get
    match r.superNamed? module builtins superName with
    | none => throw (.unknownSuperclass d.name superName)
    | some s =>
      if s = c || r.inherits s c then throw (.inheritanceCycle d.name)
      modify fun r => r.setSuperclass c s

def enterFunction (module : ModuleId) (d : FunctionDef) : Entry Unit := do
  let owner ← match d.owner with
    | none => pure none
    | some owner =>
      match (← get).classNamed? module owner with
      | some c => pure (some c)
      | none => throw (.malformedModule s!"method `{d.name}` names unknown class `{owner}`")
  modify fun r =>
    (r.addFunction { name := d.name, module, kind := .user d.start, flags := d.flags, owner }).2

def register (m : CompiledModule) (builtins : Option ModuleId) (root : ClassId) : Entry ModuleId := do
  ExceptT.mk (pure m.validate)
  let module ← match (← get).addModule m.name m.tape with
    | .ok (module, r) => set r; pure module
    | .error e => throw e
  let ids ← enterClasses module root m.classes.toList
  for (d, c) in m.classes.toList.zip ids do
    wireSuperclass module builtins d c
  for d in m.functions do
    enterFunction module d
  return module

end Spool.Registry
