import Backprop.Kernel.Call
import Backprop.Kernel.Broadcast
/-!
Entrywise arithmetic and its derivatives. Each backward kernel takes the operands and the
derivative of the result, and returns one derivative for each operand, in the operand's shape. A
power has a derivative for its base only.
-/

namespace Backprop.Kernel

def operandA := required "a"
def operandB := required "b"
def derivative := required "dy"

/-- The derivatives of a kernel's arguments. -/
def derivatives (ds : List Value) : Value := .tuple ds

def addForward : Kernel := binaryKernel operandA operandB Value.add

def addBackward : Kernel := ternaryKernel operandA operandB derivative fun a b dy => do
  return derivatives [← unbroadcast dy a, ← unbroadcast dy b]

def subForward : Kernel := binaryKernel operandA operandB Value.sub

def subBackward : Kernel := ternaryKernel operandA operandB derivative fun a b dy => do
  return derivatives [← unbroadcast dy a, ← unbroadcast (← dy.neg) b]

def mulForward : Kernel := binaryKernel operandA operandB Value.mul

def mulBackward : Kernel := ternaryKernel operandA operandB derivative fun a b dy => do
  return derivatives [← unbroadcast (← dy.mul b) a, ← unbroadcast (← dy.mul a) b]

def divForward : Kernel := binaryKernel operandA operandB Value.div

def divBackward : Kernel := ternaryKernel operandA operandB derivative fun a b dy => do
  let da ← unbroadcast (← dy.div b) a
  let db ← unbroadcast (← (← (← dy.neg).mul a).div (← b.mul b)) b
  return derivatives [da, db]

def exponent := required "p"

def powForward : Kernel := binaryKernel operandA exponent Value.pow

def powBackward : Kernel := ternaryKernel operandA exponent derivative fun a p dy => do
  let scaled ← dy.mul p
  let lowered ← a.pow (← p.sub (.int 1))
  return derivatives [← unbroadcast (← scaled.mul lowered) a, .none]

def negForward : Kernel := unaryKernel operandA Value.neg

def negBackward : Kernel := binaryKernel operandA derivative fun _ dy => do
  return derivatives [← dy.neg]

end Backprop.Kernel
