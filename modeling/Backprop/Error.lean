import Backprop.Value.Display
/-!
What can go wrong, as causes. `Error.kind` says what sort of failure a cause is, and
`Error.message?` words those that the library reports itself; a failure of plain arithmetic is told
by its kind alone.
-/

namespace Backprop

/-- Sorts of failure. -/
inductive ErrorKind where
  | configuration | unresolvedName | missingInput | unknownVariable | structural
  | evaluationState | operation
  | type | value | index | key | attribute | divisionByZero | overflow | memory | runtime
  | missingModule
deriving DecidableEq, Repr

/-- The name that a sort of failure goes by. -/
def ErrorKind.name : ErrorKind → String
  | .configuration => "ConfigurationError"
  | .unresolvedName => "UnresolvedNameError"
  | .missingInput => "MissingInputError"
  | .unknownVariable => "UnknownVariableError"
  | .structural => "StructuralError"
  | .evaluationState => "EvaluationStateError"
  | .operation => "OperationError"
  | .type => "TypeError"
  | .value => "ValueError"
  | .index => "IndexError"
  | .key => "KeyError"
  | .attribute => "AttributeError"
  | .divisionByZero => "ZeroDivisionError"
  | .overflow => "OverflowError"
  | .memory => "MemoryError"
  | .runtime => "RuntimeError"
  | .missingModule => "ModuleNotFoundError"

inductive Error where
  -- recording nodes
  | reservedKind (kind : String)
  | outputCount (n : Int)
  | paramFromNode (n : NodeRef)
  | nestedNode (n : NodeRef)
  | otherGraph (n : NodeRef)
  | objectArray
  | unsupportedArgument (typeName : String)
  | unknownTrainMethod (param : Option String) (method : String)
  | differentGraphs
  | noOperand
  | iteratedNode
  | noNodeNamed (name : String)
  -- registries
  | emptyKind
  | kindWithoutOutputs (kind : String)
  | kindTaken (kind : String)
  | unknownKind (kind : String)
  -- naming, order, compilation
  | unknownNaming (mode : Value)
  | cycle
  | noTerminals
  | notANode (typeName : String)
  | terminalGraphs
  | duplicateNames (names : List String)
  | noBackward (kind : String) (node : Option String)
  | cannotKeep (name : String)
  -- checks of a schedule
  | slotMisplaced (name : String) (position : Nat) (claimed : Int)
  | slotOutOfRange (instruction : String) (slot : Int)
  | nameOutOfRange (name : String) (slot : Int)
  | outOfPosition (instruction : String)
  | readsUnwritten (instruction : String) (slots : List Int)
  | backwardMismatch
  | unnamedNode (n : NodeRef)
  | nameReused (name : String)
  -- evaluation
  | noVariable (name : String)
  | noSlot (key : Value)
  | notAnInput (name : String)
  | unboundInputs (names : List String)
  | renamed (name : String) (now : Option String)
  | unknownMode (mode : String)
  | notReady
  | alreadyEvaluating
  | moveWhileEvaluating
  | outputMismatch (kind node : String) (n : Nat)
  | unknownStep (kind : String)
  | noAccelerator
  -- arithmetic on values
  /-- An operand of a type that the operation does not take. -/
  | operandType
  /-- A call with arguments that the operation does not have, or without some that it needs. -/
  | badCall
  /-- Operands whose shapes do not fit, or an argument outside the allowed values. -/
  | badValue
  | outOfRange
  | missingKey
  /-- A plain value has no axes to rearrange. -/
  | noAxes
  | divisionByZero
  | overflow
  /-- A result that would not fit into memory. -/
  | outOfMemory
  /-- A failure of an operation, observer or transfer from outside the library. -/
  | refused (kind : ErrorKind) (message : String)

namespace Error

def kind : Error → ErrorKind
  | reservedKind _ | outputCount _ | paramFromNode _ | nestedNode _ | otherGraph _ | objectArray
  | unsupportedArgument _ | unknownTrainMethod .. | differentGraphs | noOperand | emptyKind
  | kindWithoutOutputs _ | kindTaken _ | unknownKind _ | noTerminals | notANode _ | terminalGraphs
  | noBackward .. => .configuration
  | duplicateNames _ => .unresolvedName
  | unboundInputs _ => .missingInput
  | cannotKeep _ | noVariable _ | noSlot _ | notAnInput _ => .unknownVariable
  | renamed .. => .structural
  | notReady | alreadyEvaluating | moveWhileEvaluating => .evaluationState
  | outputMismatch .. => .operation
  | iteratedNode | operandType | badCall => .type
  | unknownNaming _ | cycle | slotMisplaced .. | slotOutOfRange .. | nameOutOfRange ..
  | outOfPosition _ | readsUnwritten .. | backwardMismatch | unnamedNode _ | nameReused _
  | unknownMode _ | unknownStep _ | badValue => .value
  | outOfRange => .index
  | noNodeNamed _ | missingKey => .key
  | noAxes => .attribute
  | divisionByZero => .divisionByZero
  | overflow => .overflow
  | outOfMemory => .memory
  | noAccelerator => .missingModule
  | refused k _ => k

/-- A name, or the word for a missing one. -/
def shownName (name : Option String) : String := name.getD "None"

/-- The wording of a failure that the library reports. Nodes are shown by their label. -/
def message? (label : NodeRef → String) : Error → Option String
  | reservedKind k => some s!"`{k}` nodes cannot be created through apply()."
  | outputCount n => some s!"num_outputs must be positive, got {n}."
  | paramFromNode n => some <| "Param value must be concrete data, got " ++ label n
      ++ "; a Param cannot be initialised from another node."
  | nestedNode n => some <| label n
      ++ " is nested inside a container; node references must be top-level arguments."
  | otherGraph n => some <| label n ++ " belongs to a different graph."
  | objectArray => some "Object arrays cannot be embedded as constants."
  | unsupportedArgument t =>
    some s!"Unsupported argument of type `{t}`; expected a Node or a numeric/str constant."
  | unknownTrainMethod name m => some <| "Param `" ++ shownName name ++ "` has unknown train_method `"
      ++ m ++ "`; expected one of ('gradient', 'average', 'none')."
  | differentGraphs => some "Operands belong to different graphs."
  | noOperand => some "At least one argument must be a Node to infer the owning graph."
  | iteratedNode =>
    some "Nodes are symbolic and cannot be iterated; use num_outputs for multiple outputs."
  | noNodeNamed name => some s!"No node named `{name}`."
  | emptyKind => some "Operation kind must be a non-empty string."
  | kindWithoutOutputs k => some s!"Operation `{k}` must have at least one output."
  | kindTaken k => some s!"Operation `{k}` is already registered."
  | unknownKind k => some s!"Unknown operation kind `{k}`."
  | unknownNaming m => some <| "Unknown naming mode: " ++ m.quotedText label
  | cycle => some "Graph has cycles or is malformed."
  | noTerminals => some "compile needs at least one terminal node."
  | notANode t => some s!"Terminals must be Nodes, got `{t}`."
  | terminalGraphs => some "All terminals must belong to the same graph."
  | duplicateNames names => some <| "Duplicate node names in graph: " ++ ", ".intercalate names
  | noBackward k node => some <| "Operation `" ++ k ++ "` of node `" ++ shownName node
      ++ "` has no backward mode but lies on a gradient path."
  | cannotKeep name => some s!"Cannot keep unknown variable `{name}`."
  | slotMisplaced name position claimed =>
    some s!"Slot `{name}` stored at {position} claims index {claimed}."
  | slotOutOfRange i slot => some s!"Instruction `{i}` references slot {slot} out of range."
  | nameOutOfRange name slot => some s!"Name `{name}` maps to slot {slot} out of range."
  | outOfPosition i => some s!"Instruction `{i}` is out of position."
  | readsUnwritten i slots => some <| "Instruction `" ++ i ++ "` reads slots ["
      ++ ", ".intercalate (slots.map toString) ++ "] before they are written."
  | backwardMismatch =>
    some "Backward list is not the reversed gradient-requiring forward list."
  | unnamedNode n => some <| label n ++ " reached compilation without a name."
  | nameReused name => some s!"Name `{name}` is used by more than one node."
  | noVariable name => some s!"No variable named `{name}`."
  | noSlot key => some <| "No variable slot " ++ key.quotedText label ++ "."
  | notAnInput name => some s!"`{name}` is not an input of this Net."
  | unboundInputs names => some <| "No value bound for inputs: " ++ ", ".intercalate names
  | renamed name now => some <| "Node `" ++ name ++ "` was renamed to `" ++ shownName now
      ++ "` after compilation; compile a new Net."
  | unknownMode m => some <| "Unknown evaluation mode `" ++ m
      ++ "`; expected one of ('normal', 'forward', 'test')."
  | notReady =>
    some "backward() needs a preceding forward pass run with keep_for_backward=True."
  | alreadyEvaluating => some
      "Net is already evaluating; concurrent or re-entrant evaluations are not allowed."
  | moveWhileEvaluating => some "Cannot move a Net while it is evaluating."
  | outputMismatch k node n =>
    some s!"Operation `{k}` of `{node}` must return {n} outputs."
  | unknownStep k => some s!"Unknown step kind: {k}"
  | noAccelerator => some "Placing values on an accelerator requires PyTorch to be installed."
  | refused _ m => some m
  | operandType | badCall | badValue | outOfRange | missingKey | noAxes | divisionByZero
  | overflow | outOfMemory => none

end Error

end Backprop
