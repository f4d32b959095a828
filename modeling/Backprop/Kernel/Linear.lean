import Backprop.Kernel.Arithmetic
import Backprop.Value.Item
import Backprop.Value.Reshape
/-!
Matrix products, transposition, reshaping and indexing with their derivatives. The index and the
shape are not differentiated.
-/

namespace Backprop.Kernel

def matmulForward : Kernel := binaryKernel operandA operandB Value.matmul

/-- The derivatives of a matrix product are products with the transposed operands. Vectors are made
matrices first and the derivatives are made vectors again. -/
def matmulBackward : Kernel := ternaryKernel operandA operandB derivative fun a b dy => do
  let rowVector := a.shape.length = 1
  let columnVector := b.shape.length = 1
  let a₂ ← if rowVector then a.insertAxis 0 else pure a
  let b₂ ← if columnVector then b.insertAxis (-1) else pure b
  let dy₂ ← if columnVector then dy.insertAxis (-1) else pure dy
  let dy₂ ← if rowVector then dy₂.insertAxis (-2) else pure dy₂
  let da ← dy₂.matmul (← b₂.swapLast)
  let db ← (← a₂.swapLast).matmul dy₂
  let da ← if rowVector then da.removeAxis (-2) else pure da
  let db ← if columnVector then db.removeAxis (-1) else pure db
  return derivatives [← unbroadcast da a, ← unbroadcast db b]

def transposeForward : Kernel := unaryKernel operandA Value.transpose

def transposeBackward : Kernel := binaryKernel operandA derivative fun _ dy => do
  return derivatives [← dy.transpose]

def newShape := required "shape"

def reshapeForward : Kernel := binaryKernel operandA newShape Value.reshape

def reshapeBackward : Kernel := ternaryKernel operandA newShape derivative fun a _ dy => do
  return derivatives [← dy.reshape (axisTuple a.shape), .none]

def indexParameter := required "index"

def getitemForward : Kernel := binaryKernel operandA indexParameter Value.item

def getitemBackward : Kernel := ternaryKernel operandA indexParameter derivative fun a i dy => do
  return derivatives [← (← a.zerosLike).scatterAdd i dy, .none]

end Backprop.Kernel
