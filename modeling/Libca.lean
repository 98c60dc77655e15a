import Libca.Process.ShmRing.Fifo
import Libca.Http.FailedReader
import Libca.Http.ResponseRoundTrip
import Libca.Str.Charset
import Libca.Str.Utf16
import Libca.Str.Interning
import Libca.Str.PoolRuns
import Libca.Zip.Lifetime
import Libca.Core.Ownership
import Libca.Csv.RoundTrip
import Libca.Json.Soundness
import Libca.Json.KvStore
import Libca.Ini.Editing
import Libca.Crypto.Modes
import Libca.Crypto.HashRuns
import Libca.Thread.BoundedQueue
import Libca.Thread.Channel
import Libca.Thread.ThreadPool
import Libca.Thread.MessageLoop
import Libca.Thread.Timer
import Libca.Thread.ObjectPool
import Libca.Io.BufReader
import Libca.Io.BufWriter
import Libca.Config.ConfigVar
import Libca.Fs.AtomicWrite
import Libca.Net.DnsCache
import Libca.Crypto.DesModes
import Libca.Config.LoadOrder
import Libca.Process.ShmRing.Layout
import Libca.Str.Base64Url
import Libca.Str.SingleByte
import Libca.Http.Framing
import Libca.Ini.Calls
import Libca.Str.Splitting
import Libca.Core.AtExit
import Libca.Toml.Number
import Libca.Str.Reversal
import Libca.Csv.Validation
import Libca.Crypto.Encodings
import Libca.Yaml.BlockScalar
import Libca.Xml.Node
import Libca.Json.SchemaBounds
import Libca.Json.Readable
import Libca.Zip.Tiling
import Libca.Crypto.ChaCha20
import Libca.Http.QueryParams
import Libca.Process.CommandLine
import Libca.Http.ClientRetry
import Libca.Fs.Glob
import Libca.Opt.HelpWrap
import Libca.Opt.Spellings
import Libca.Opt.Precedence
import Libca.Fs.PathUtil
import Libca.Collection.LruObjects
import Libca.Str.Gb18030
import Libca.Process.Deadline
import Libca.I18n.Placeholders
import Libca.Str.LossyTotal
import Libca.Str.CString
import Libca.Io.Loops
import Libca.Net.Address
import Libca.Yaml.Scalar
import Libca.Json.SchemaPaths
import Libca.Core.MathUtil
import Libca.Resources.Bundle
import Libca.Random.Uniform
import Libca.Random.SplitMix64
import Libca.Collection.StreamLists
import Libca.Process.Birth
