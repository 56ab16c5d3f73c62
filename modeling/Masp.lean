import Masp.Bytes
import Masp.Zip32.Keys
import Masp.Zip32.Tree
import Masp.Zip32.Encoding
import Masp.Zip32.FromStr
import Masp.Zip32.Diversifier
import Masp.Zip32.FF1
import Masp.Amount.BTreeMap
import Masp.Amount.Basic
import Masp.Amount.Arith
import Masp.Amount.Mul
import Masp.Amount.Order
import Masp.Amount.Serialize
