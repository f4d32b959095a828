import Backprop.Registry
import Backprop.Kernel.Linear
import Backprop.Kernel.Reduction
import Backprop.Kernel.Elementary
/-!
The operations that every graph starts with.
-/

namespace Backprop

open Kernel

def Registry.builtin : Registry where
  entries := [
    ⟨"add", addForward, some addBackward, none, 1⟩,
    ⟨"sub", subForward, some subBackward, none, 1⟩,
    ⟨"mul", mulForward, some mulBackward, none, 1⟩,
    ⟨"div", divForward, some divBackward, none, 1⟩,
    ⟨"pow", powForward, some powBackward, none, 1⟩,
    ⟨"neg", negForward, some negBackward, none, 1⟩,
    ⟨"matmul", matmulForward, some matmulBackward, none, 1⟩,
    ⟨"transpose", transposeForward, some transposeBackward, none, 1⟩,
    ⟨"reshape", reshapeForward, some reshapeBackward, none, 1⟩,
    ⟨"getitem", getitemForward, some getitemBackward, none, 1⟩,
    ⟨"sum", sumForward, some sumBackward, none, 1⟩,
    ⟨"mean", meanForward, some meanBackward, none, 1⟩,
    ⟨"exp", expForward, some expBackward, none, 1⟩,
    ⟨"log", logForward, some logBackward, none, 1⟩,
    ⟨"sqrt", sqrtForward, some sqrtBackward, none, 1⟩,
    ⟨"abs", absForward, some absBackward, none, 1⟩,
    ⟨"tanh", tanhForward, some tanhBackward, none, 1⟩,
    ⟨"sigmoid", sigmoidForward, some sigmoidBackward, none, 1⟩,
    ⟨"relu", reluForward, some reluBackward, none, 1⟩]

end Backprop
