import Backprop.Net.Basic
/-!
One step of gradient descent on the parameters of a net that are to be trained.
-/

namespace Backprop

namespace Net

/-- Moves a parameter against its derivative, scaled by both learning rates, after its decay. One that
is not to be trained stays as it is. -/
def descendParam (rate : Value) (p : ParamInfo) : NetM (String × Value) := do
  let x ← onTable (VariableTable.getValue p.slot)
  if p.trainMethod = .none then return (p.name, x)
  let der ← onTable (VariableTable.getDer p.slot)
  let update ← ofExcept (do (← rate.mul p.learningRate).mul der)
  let new ← ofExcept (do (← x.mul p.weightDecay).sub update)
  onTable (VariableTable.putValue p.slot new)
  return (p.name, new)

/-- Trains the parameters in slot order; the result is their values by name. -/
def descend (rate : Value) : NetM (List (String × Value)) := do
  (← get).params.mapM (descendParam rate)

end Net

end Backprop
