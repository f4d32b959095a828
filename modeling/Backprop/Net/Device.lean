import Backprop.Error
import Backprop.Text.LetterCase
/-!
Devices, by name. Values live on the host; only arrays are moved, and no other device can hold them
here unless a net is given a transfer of its own.
-/

namespace Backprop

namespace Device

def host : String := "cpu"

/-- The name that a device goes by: in lower case, and without nicknames. -/
def normalize (label : NodeRef → String) (device : Value) : String :=
  let name := Text.lowerCase (device.plainText label)
  if name = "gpu" then "cuda" else name

/-- A value as the host holds it. -/
def toHost (v : Value) : Value := v

end Device

/-- Moves a value to the device with a normalized name. -/
abbrev Transfer := Value → String → Except Error Value

/-- Keeps what is not an array, and arrays on the host. -/
def Transfer.standard : Transfer := fun v device =>
  if !v.isMovable || device = Device.host then .ok v else .error .noAccelerator

end Backprop
