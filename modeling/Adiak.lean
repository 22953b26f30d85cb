import Adiak.Types
import Adiak.Memory
import Adiak.TypeTree
import Adiak.Library.Allocator
import Adiak.Library.Chain
import Adiak.Library.Collective
import Adiak.Library.Ledger
import Adiak.Library.LittleEndian
import Adiak.Library.Layout
import Adiak.Library.Nesting
import Adiak.Library.Packed
import Adiak.Library.Loop
import Adiak.Library.InputStream
import Adiak.Library.Supply
import Adiak.Library.Traced
import Adiak.Typestring.Parser
import Adiak.Typestring.Grammar
import Adiak.Typestring.Reread
import Adiak.Typestring.Denotation
import Adiak.Typestring.Toplevel
import Adiak.Typestring.WellFormed
import Adiak.Typestring.FindEndBrace
import Adiak.Typestring.Printer
import Adiak.Typestring.TwoPasses
import Adiak.Typestring.HeapParser
import Adiak.Values.Access
import Adiak.Values.Contents
import Adiak.Values.Represents
import Adiak.Values.Copied
import Adiak.Values.References
import Adiak.Values.Seen
import Adiak.Namevalue
import Adiak.Values.Recorded
import Adiak.Values.Later
import Adiak.Python.Convert
import Adiak.Python.Readers
import Adiak.Values.Integers
import Adiak.Values.StructLayout
import Adiak.Values.Offsets
import Adiak.Store.Record
import Adiak.Store.Invariant
import Adiak.Store.History
import Adiak.Store.Tools
import Adiak.Cpp.Types
import Adiak.Cpp.Counts
import Adiak.Cpp.Blocks
import Adiak.Cpp.RoundTrip
import Adiak.Cpp.Balanced
import Adiak.Cpp.Offers
import Adiak.Cpp.Typestring
import Adiak.Cpp.Unsupported
import Adiak.Python.RoundTrip
import Adiak.Typestring.PrintParse
import Adiak.Typestring.Loose
import Adiak.Typestring.Settles
import Adiak.Typestring.Refusal
import Adiak.Typestring.Reads
import Adiak.Typestring.Blocks
import Adiak.Typestring.Abandoned
import Adiak.Store.Shared
import Adiak.Store.Infos
import Adiak.Store.Written
import Adiak.Values.Blocks
import Adiak.Values.Freed
import Adiak.Store.Released
import Adiak.Store.Ownership
import Adiak.Store.Handed
import Adiak.Store.Owned
import Adiak.Store.Leaks
import Adiak.Library.Cube
import Adiak.Hosts.Protocol
import Adiak.Hosts.Salts
import Adiak.Hosts.UniqueHost
import Adiak.Hosts.SameList
import Adiak.Hosts.Rounds
import Adiak.Store.Reentry
import Adiak.Collect.Strings
import Adiak.Collect.Cmdline
import Adiak.Collect.Routines
import Adiak.Collect.ReadCmdline
import Adiak.Collect.CollectAll
import Adiak.Hosts.Job
import Adiak.Python.Agreement
