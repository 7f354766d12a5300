import PocketCalc.Machine
import PocketCalc.Proofs.Calculation
import PocketCalc.Proofs.DisplayedDigits
import PocketCalc.Proofs.Explanation
import PocketCalc.Proofs.Expr.FirstError
import PocketCalc.Proofs.Expr.Height
import PocketCalc.Proofs.Expr.RoundTrip
import PocketCalc.Proofs.Expr.Strictness
import PocketCalc.Proofs.Keypad.Insertion
import PocketCalc.Proofs.Keypad.Literal
import PocketCalc.Proofs.Session
import PocketCalc.Session
import PocketCalc.Proofs.Token.Respelling
import PocketCalc.Proofs.Binary64.WholeNumbers
import PocketCalc.Proofs.QuarterTurns
import PocketCalc.Proofs.UnitOfAngle
