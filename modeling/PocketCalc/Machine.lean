import PocketCalc.Function

/-!
# The arithmetic of the machine

The four operations are the library's own, exact up to one rounding. The other functions are those
of the machine, applied to the same 64 bits.
-/

namespace PocketCalc

namespace Binary64

/-- The machine's double with the same bits. -/
def toFloat (x : Binary64) : Float := .ofBits x.toBits

/-- The double with the same bits as the machine's. -/
def ofFloat (x : Float) : Binary64 := .ofBits x.toBits

/-- A function of the machine as a function on doubles. -/
def onMachine (f : Float → Float) (x : Binary64) : Binary64 := ofFloat (f x.toFloat)

end Binary64

/-- The arithmetic that the calculator runs with. -/
def Arithmetic.machine : Arithmetic where
  binary := BinaryOp.onDoubles
  trig
    | .sin => Binary64.onMachine Float.sin
    | .cos => Binary64.onMachine Float.cos
    | .tan => Binary64.onMachine Float.tan
  arc
    | .sin => Binary64.onMachine Float.asin
    | .cos => Binary64.onMachine Float.acos
    | .tan => Binary64.onMachine Float.atan
  sqrt := Binary64.onMachine Float.sqrt
  log10 := Binary64.onMachine Float.log10
  ln := Binary64.onMachine Float.log
  pow x y := .ofFloat (Float.pow x.toFloat y.toFloat)

end PocketCalc
