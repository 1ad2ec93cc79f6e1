import Netc.Lib.Mem
import Netc.Lib.Loop
import Netc.Lib.Digits
import Netc.Ring
import Netc.Failure
import Netc.Guarantee
import Netc.Output
import Netc.Tans.Roundtrip
import Netc.Tans.Absent
import Netc.Tans.States
import Netc.Tans.Rescale
import Netc.Tans.Inverse
import Netc.Tans.Size
import Netc.LzpTrain
import Netc.ClassMap
import Netc.Corruption
import Netc.Untouched
import Netc.Simd
import Netc.CrcPaths
import Netc.AnyBuffer
import Netc.ByteOrder
import Netc.DictBlob
import Netc.DictIndex
import Netc.Capacity
import Netc.Compact
import Netc.StatelessRoundtrip
import Netc.AnyOrder
import Netc.Reset
import Netc.History
import Netc.Link
import Netc.Host
import Netc.Datagram
import Netc.Predict
import Netc.Shipping
import Netc.Confined
import Netc.LzpLiterals
import Netc.Rle
import Netc.Accounting
import Netc.Sdk.Objects
import Netc.CorpusOrder
import Netc.Framing
import Netc.SentSize
