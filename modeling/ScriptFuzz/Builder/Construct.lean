import ScriptFuzz.Builder.Basic
import ScriptFuzz.Random.Draw

/-!
# Constructing code

Values, operators, calls and blocks as actions of any monad that holds a builder as state and can
raise faults. A block takes its body as an action; where a block binds variables, the body is a
function of them.
-/

namespace ScriptFuzz.Build

set_option autoImplicit false

variable {m : Type → Type} [Monad m] [MonadStateOf Builder m] [MonadExceptOf Fault m]

/-- Raises the fault of a computation or continues with its result. -/
def orRaise {α : Type} : Except Fault α → m α
  | .ok a => return a
  | .error f => throw f

/-- Adds an instruction; gives the variables that it declares. -/
def emit (op : Operation) (inputs : List Variable) : m (List Variable) := do
  let (produced, b) ← orRaise ((← getThe Builder).emit op inputs)
  set b
  return produced

/-- Adds an instruction without a result. -/
def emit_ (op : Operation) (inputs : List Variable) : m Unit := do
  let _ ← emit op inputs

/-- Adds an instruction that declares a variable; gives the variable. -/
def emitOne (op : Operation) (inputs : List Variable) : m Variable := do
  match ← emit op inputs with
  | v :: _ => return v
  | [] => throw (.noSingleOutput op)

/-- A visible variable at random, if any is visible. -/
def randomVariable [MonadStateOf Random m] : m (Option Variable) := do
  let (v, r) := (Draw.choose (← getThe Builder).visibleVariables).run (← getThe Random)
  set r
  return v

def beginAdoption : m Unit := modifyThe Builder Builder.beginAdoption

def adopted (v : Variable) : m Variable := do orRaise ((← getThe Builder).adopted v)

def adoptAs (i : Instruction) (op : Operation) : m (List Variable) := do
  let (produced, b) ← orRaise ((← getThe Builder).adoptAs i op)
  set b
  return produced

def adopt (i : Instruction) : m (List Variable) := adoptAs i i.op

def appendProgram (p : Program) : m Unit := do
  set (← orRaise ((← getThe Builder).appendProgram p))

/-! ## Values -/

def loadInt (value : Int64) : m Variable := emitOne (.loadInteger value) []

def loadBigInt (value : Int64) : m Variable := emitOne (.loadBigInt value) []

def loadFloat (value : Number.Binary64) : m Variable := emitOne (.loadFloat value) []

def loadString (value : String) : m Variable := emitOne (.loadString value) []

def loadBool (value : Bool) : m Variable := emitOne (.loadBoolean value) []

def loadUndefined : m Variable := emitOne .loadUndefined []

def loadNull : m Variable := emitOne .loadNull []

def loadBuiltin (name : String) : m Variable := emitOne (.loadBuiltin name) []

/-- The first visible variable that was declared by loading a builtin, if there is one. -/
def loadedBuiltin? (b : Builder) (name : String) : Option Variable :=
  b.visibleVariables.find? fun v => (b.definition? v).any fun i => i.op = .loadBuiltin name

/-- A visible variable that was declared by loading a builtin; the builtin is loaded if there is
none. -/
def reuseBuiltin (name : String) : m Variable := do
  match loadedBuiltin? (← getThe Builder) name with
  | some v => return v
  | none => loadBuiltin name

def createArray (values : List Variable) : m Variable :=
  emitOne (.createArray values.length) values

/-! ## Members and calls -/

def getProperty (name : String) (object : Variable) : m Variable :=
  emitOne (.getProperty name) [object]

def setProperty (name : String) (object value : Variable) : m Unit :=
  emit_ (.setProperty name) [object, value]

def getElement (index : Int64) (object : Variable) : m Variable :=
  emitOne (.getElement index) [object]

def setElement (index : Int64) (object value : Variable) : m Unit :=
  emit_ (.setElement index) [object, value]

def callFunction (function : Variable) (arguments : List Variable) : m Variable :=
  emitOne (.callFunction arguments.length) (function :: arguments)

def construct (constructor : Variable) (arguments : List Variable) : m Variable :=
  emitOne (.construct arguments.length) (constructor :: arguments)

def callMethod (name : String) (object : Variable) (arguments : List Variable) : m Variable :=
  emitOne (.callMethod name arguments.length) (object :: arguments)

/-! ## Operators and statements -/

def unary (op : UnaryOperator) (input : Variable) : m Variable :=
  emitOne (.unaryOperation op) [input]

def binary (left right : Variable) (op : BinaryOperator) : m Variable :=
  emitOne (.binaryOperation op) [left, right]

def ternary (condition whenTrue whenFalse : Variable) : m Variable :=
  emitOne .ternaryOperation [condition, whenTrue, whenFalse]

def compare (left right : Variable) (op : Comparator) : m Variable :=
  emitOne (.compare op) [left, right]

def reassign (target value : Variable) : m Unit := emit_ .reassign [target, value]

def update (target value : Variable) (op : BinaryOperator) : m Unit :=
  emit_ (.update op) [target, value]

def dup (value : Variable) : m Variable := emitOne .dup [value]

def eval (code : String) (arguments : List Variable) : m Unit :=
  emit_ (.eval code arguments.length) arguments

def print (value : Variable) : m Unit := emit_ .print [value]

def throwException (value : Variable) : m Unit := emit_ .throwException [value]

def ret (value : Variable) : m Unit := emit_ .ret [value]

def loopBreak : m Unit := emit_ .loopBreak []

def loopContinue : m Unit := emit_ .loopContinue []

/-! ## Blocks -/

/-- A function with the given number of parameters; gives the function. -/
def plainFunction (parameters : Nat) (body : List Variable → m Unit) : m Variable := do
  match ← emit (.beginPlainFunction parameters) [] with
  | [] => throw (.noSingleOutput (.beginPlainFunction parameters))
  | function :: ps =>
    body ps
    emit_ .endPlainFunction []
    return function

def ifThen (condition : Variable) (body : m Unit) : m Unit := do
  emit_ (.beginIf false) [condition]
  body
  emit_ .endIf []

def ifElse (condition : Variable) (whenTrue whenFalse : m Unit) : m Unit := do
  emit_ (.beginIf false) [condition]
  whenTrue
  emit_ .beginElse []
  whenFalse
  emit_ .endIf []

def whileLoop (left : Variable) (op : Comparator) (right : Variable) (body : m Unit) : m Unit := do
  emit_ (.beginWhileLoop op) [left, right]
  body
  emit_ .endWhileLoop []

/-- A loop that counts; the body gets the counter. -/
def forLoop (first last step : Variable) (body : Variable → m Unit) : m Unit := do
  body (← emitOne .beginForLoop [first, last, step])
  emit_ .endForLoop []

/-- A guarded body and a handler that gets the exception. -/
def tryCatch (body : m Unit) (handler : Variable → m Unit) : m Unit := do
  emit_ .beginTry []
  body
  handler (← emitOne .beginCatch [])
  emit_ .endTryCatchFinally []

def tryFinally (body last : m Unit) : m Unit := do
  emit_ .beginTry []
  body
  emit_ .beginFinally []
  last
  emit_ .endTryCatchFinally []

/-- A choice between cases, each with its value and its body, and a body for all other values. -/
def switch (subject : Variable) (cases : List (Variable × m Unit)) (otherwise : Option (m Unit)) :
    m Unit := do
  emit_ .beginSwitch [subject]
  cases.forM fun (value, body) => do
    emit_ .beginSwitchCase [value]
    body
    emit_ .endSwitchCase []
  if let some body := otherwise then
    emit_ .beginSwitchDefaultCase []
    body
    emit_ .endSwitchCase []
  emit_ .endSwitch []

/-- A class; the body adds its methods. Gives the class. -/
def classDefinition (superclass : Option Variable) (body : m Unit) : m Variable := do
  let c ← emitOne (.beginClassDefinition superclass.isSome) superclass.toList
  body
  emit_ .endClassDefinition []
  return c

/-- A method of the enclosing class; the body gets the receiver and the parameters. -/
def classMethod (name : String) (parameters : Nat) (body : Variable → List Variable → m Unit) :
    m Unit := do
  match ← emit (.beginClassMethod name parameters) [] with
  | [] => throw (.noSingleOutput (.beginClassMethod name parameters))
  | receiver :: ps =>
    body receiver ps
    emit_ .endClassMethod []

end ScriptFuzz.Build
