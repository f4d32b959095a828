import Backprop.Kernel.Arithmetic
import Backprop.Value.Function
/-!
Entrywise functions of one argument with their derivatives.
-/

namespace Backprop.Kernel

/-- A backward kernel of a function of one argument. -/
def chain (f : Value → Value → Except Error Value) : Kernel :=
  binaryKernel operandA derivative fun a dy => do return derivatives [← f a dy]

def expForward : Kernel := unaryKernel operandA Value.exp
def expBackward : Kernel := chain fun a dy => do dy.mul (← a.exp)

def logForward : Kernel := unaryKernel operandA Value.log
def logBackward : Kernel := chain fun a dy => dy.div a

def sqrtForward : Kernel := unaryKernel operandA Value.sqrt
def sqrtBackward : Kernel := chain fun a dy => do (← dy.mul (.float 0.5)).div (← a.sqrt)

def absForward : Kernel := unaryKernel operandA Value.abs
def absBackward : Kernel := chain fun a dy => do dy.mul (← a.sign)

def tanhForward : Kernel := unaryKernel operandA Value.tanh

def tanhBackward : Kernel := chain fun a dy => do
  let t ← a.tanh
  dy.mul (← (Value.int 1).sub (← t.mul t))

/-- The logistic function `1 / (1 + exp (-a))`. -/
def logistic (a : Value) : Except Error Value := do
  (Value.int 1).div (← (Value.int 1).add (← (← a.neg).exp))

def sigmoidForward : Kernel := unaryKernel operandA logistic

def sigmoidBackward : Kernel := chain fun a dy => do
  let s ← logistic a
  (← dy.mul s).mul (← (Value.int 1).sub s)

def reluForward : Kernel := unaryKernel operandA fun a => do a.mul (← a.isPositive)
def reluBackward : Kernel := chain fun a dy => do dy.mul (← a.isPositive)

end Backprop.Kernel
