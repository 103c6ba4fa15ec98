import Tailfin.Library.Runs
import Tailfin.Library.Simulation
import Tailfin.Library.AssocSums
import Tailfin.Library.ParentLinks
import Tailfin.Library.Text
import Tailfin.Library.Utf8
import Tailfin.Library.Wrapping
import Tailfin.Library.BigEndian
import Tailfin.Library.Framing
import Tailfin.Wire.Usage
import Tailfin.Ident.NodeRef
import Tailfin.Tree.Task
import Tailfin.Tree.Steps
import Tailfin.Tree.Overshoot
import Tailfin.Tree.Voucher
import Tailfin.Tree.Ceiling
import Tailfin.Tree.Depth
import Tailfin.Tree.Pricing
import Tailfin.Tree.Subtree
import Tailfin.Tree.Preorder
import Tailfin.Wire.Sse
import Tailfin.Wire.SseChunks
import Tailfin.Wire.SseText
import Tailfin.Wire.SseFormat
import Tailfin.Wire.JsonBody
import Tailfin.Wire.Reports
import Tailfin.Library.Segments
import Tailfin.Wire.Paths
import Tailfin.Ident.Partition
import Tailfin.Ident.Numbering
import Tailfin.Ident.SharedDepth
import Tailfin.Ident.Growth
import Tailfin.Ident.Retain
import Tailfin.Library.FlatJson
import Tailfin.Ident.TurnMetadata
import Tailfin.Ledger.Record
import Tailfin.Ledger.File
import Tailfin.Ledger.Cuts
import Tailfin.Ledger.Share
import Tailfin.Library.KeyedFold
import Tailfin.Ledger.ShadowReplay
import Tailfin.Ledger.Retention
import Tailfin.Library.Channel
import Tailfin.Proxy.Finish
import Tailfin.Proxy.Fuse
import Tailfin.Proxy.Agreement
import Tailfin.Proxy.Stops
import Tailfin.Proxy.Captures
import Tailfin.Proxy.Canonical
import Tailfin.Proxy.Lifetimes
import Tailfin.Proxy.Exchange
import Tailfin.Proxy.TaskRuns
import Tailfin.Proxy.Isolation
import Tailfin.Proxy.Transparent
import Tailfin.Proxy.Observe
import Tailfin.Proxy.CaptureLinks
import Tailfin.Proxy.TeeBody
import Tailfin.Proxy.Upgrade
import Tailfin.Proxy.HandBack
import Tailfin.Proxy.Answers
import Tailfin.Proxy.WsText
import Tailfin.Proxy.WsFrames
import Tailfin.Proxy.WsMeter
import Tailfin.Proxy.WsPayloads
import Tailfin.Proxy.Tunnel
import Tailfin.Proxy.Handshake
import Tailfin.Proxy.StreamRecord
import Tailfin.Ledger.Reorder
import Tailfin.Ledger.Stamp
import Tailfin.Proxy.Grade
import Tailfin.Proxy.CaptureRuns
import Tailfin.Proxy.Accounting
import Tailfin.Proxy.Launch
