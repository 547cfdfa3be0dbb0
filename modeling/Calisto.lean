import Calisto.Lib.Machine
import Calisto.Lib.Handles
import Calisto.Wire.Fragment
import Calisto.Codec.Strict
import Calisto.Codec.Agreement
import Calisto.Codec.Url
import Calisto.Daemon.Descriptors
import Calisto.Daemon.Children
import Calisto.Daemon.Stdio
import Calisto.Daemon.Malformed
import Calisto.Daemon.Isolation
import Calisto.Daemon.Death
import Calisto.Daemon.Pending
import Calisto.Daemon.Decode
import Calisto.Daemon.Attribution
import Calisto.Daemon.Control
import Calisto.Daemon.Progress
import Calisto.Hash.Blake3Tree
import Calisto.Hash.Sha256Ni
import Calisto.Hash.Sha256Fips
import Calisto.Hash.Xxh64
import Calisto.Bundle.LoaderState
import Calisto.Bundle.Rounds
import Calisto.Bundle.Extensions
import Calisto.Bundle.Meaning
import Calisto.Ext.SqliteHandles
import Calisto.Ext.PgHandles
import Calisto.Ext.PgConninfo
import Calisto.Ext.PgInteger
import Calisto.Ruby.SymtabSafe
import Calisto.Run.Cold
import Calisto.Run.EnvBlob
import Calisto.Run.Encoding
import Calisto.App.Command
import Calisto.App.Dotenv
import Calisto.App.RuntimeDir
import Calisto.Test.Watch
import Calisto.Runtime.Agreement
import Calisto.Runtime.ColdStart
import Calisto.Runtime.Owner
import Calisto.Runtime.Resolve
