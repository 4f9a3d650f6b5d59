import Mathlib.Data.Nat.Notation

/-! # Port I/O

A processor reaches its devices through numbered ports. What a byte on a port does is up to the device, and what the device
answers may depend on its surroundings.
-/
namespace ApPa.PortIo

/-- A device with state `σ` in surroundings `ε`. -/
class Device (σ : Type) (ε : outParam Type) where
  write : σ → UInt16 → UInt8 → σ
  read : ε → σ → UInt16 → UInt8 × σ

variable {σ ε : Type} [Device σ ε]

def portByteOut (s : σ) (port : UInt16) (data : UInt8) : σ := Device.write s port data
def portByteIn (e : ε) (s : σ) (port : UInt16) : UInt8 × σ := Device.read e s port

end ApPa.PortIo
