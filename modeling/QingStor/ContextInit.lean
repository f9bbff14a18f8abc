import QingStor.Api

/-!
# Initialising a context, with its local pointer: `QingStor.cpp`

`qingstorInitContext` and `qingstorInitContextFromFile` once more, with the memory they ask for and the local `context` that their
handlers delete. The local is declared without a value.
-/

namespace QingStor

/-- The local `context`. -/
inductive ContextPointer where
  /-- declared, and not assigned -/
  | indeterminate
  /-- a context that nothing else points to -/
  | assigned
  /-- a context that was given to a wrapper -/
  | owned
  deriving DecidableEq

/-- Whether there is memory for the copies of the texts in front of the location, for the copy of the location, for the context
with its configuration, and for the wrapper. -/
structure InitMemory where
  arguments : Bool
  location : Bool
  context : Bool
  wrapper : Bool

/-- A call: what it returns, its local at the end, and the pointers it deleted. -/
structure InitRun where
  returned : Except Fault (Returned (Option Context))
  context : ContextPointer
  deleted : List ContextPointer

/-- `delete` of the local: nothing can be said of a call that deletes a pointer without a value, or one that a wrapper deletes
again. -/
def ContextPointer.delete : ContextPointer → Except Fault Unit
  | indeterminate => .error (.undefined "delete of an indeterminate pointer")
  | assigned => .ok ()
  | owned => .error (.undefined "delete of a context that is deleted again")

/-- The two handlers: `delete context;`, then `errno`. -/
def initHandlers (context : ContextPointer) (e : Exception) : InitRun :=
  ⟨context.delete.map (fun _ => ⟨none, some (if e.cls = .badAlloc then .enomem else handleException e.cls)⟩), context, [context]⟩

/-- What `operator new` throws. -/
def outOfMemory : Exception := ⟨.badAlloc, "std::bad_alloc"⟩

/-- `PARAMETER_ASSERT`, before the local is declared. -/
def parameterRefused : InitRun := ⟨refused none, .indeterminate, []⟩

/-- `context = new Context(...); return new QingStorContextInternalWrapper(context);` -/
def initAssign (mem : InitMemory) (made : Except Fault Context) : InitRun :=
  if ¬ mem.context then initHandlers .indeterminate outOfMemory
  else match made with
    | .error (.thrown e) => initHandlers .indeterminate e
    | .error (.undefined what) => ⟨.error (.undefined what), .indeterminate, []⟩
    | .ok ctx => if ¬ mem.wrapper then initHandlers .assigned outOfMemory else ⟨.ok ⟨some ctx, none⟩, .owned, []⟩

/-- The calls that make a context. -/
inductive InitCall where
  | initContext (location accessKeyId secretAccessKey : Option Str) (chunkSize : Int)
  | initContextFromFile (configFile : Option Str) (file : ConfigFile)

def InitCall.run (mem : InitMemory) : InitCall → InitRun
  | initContext location accessKeyId secretAccessKey chunkSize =>
    if ¬ given accessKeyId then parameterRefused
    else if ¬ given secretAccessKey then parameterRefused
    else if ¬ mem.arguments then initHandlers .indeterminate outOfMemory
    else match location with
      | none => ⟨.error (.undefined "std::string made from a null pointer"), .indeterminate, []⟩
      | some location =>
        if ¬ mem.location then initHandlers .indeterminate outOfMemory
        else initAssign mem (.ok ⟨.ofArguments location (accessKeyId.getD []) (secretAccessKey.getD []) chunkSize⟩)
  | initContextFromFile configFile file =>
    if ¬ given configFile then parameterRefused
    else if ¬ mem.arguments then initHandlers .indeterminate outOfMemory
    else initAssign mem ((Configuration.ofFile file).map (fun cfg => ⟨cfg⟩))

end QingStor
