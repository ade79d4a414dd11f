import Librecompat.Lib.Run
import Librecompat.Lib.Entries
import Librecompat.Argz.Model
import Librecompat.Argz.Refine
import Librecompat.Argz.Runs
import Librecompat.Argz.Atomic
import Librecompat.Wordexp.Check
import Librecompat.Wordexp.Nocmd
import Librecompat.Sendfile.Model
import Librecompat.Sendfile.Steps
import Librecompat.Sendfile.Stream
import Librecompat.Sendfile.Report
import Librecompat.Sendfile.Exact
import Librecompat.Netconfig.Model
import Librecompat.Lib.Owned
import Librecompat.Netconfig.Entry
import Librecompat.Netconfig.Table
import Librecompat.Netconfig.Calls
import Librecompat.Netconfig.Runs
import Librecompat.Wordexp.Model
import Librecompat.Wordexp.Words
import Librecompat.Wordexp.Stages
import Librecompat.Wordexp.Exits
import Librecompat.Wordexp.Vector
import Librecompat.Wordexp.Overruns
import Librecompat.Wordexp.Failure
import Librecompat.Lib.Escape
import Librecompat.Netconfig.Netpath
import Librecompat.Netconfig.NetpathTokens
import Librecompat.Netconfig.NetpathRuns
import Librecompat.Netconfig.Lines
import Librecompat.Sendfile.Position
import Librecompat.Argz.Strings
import Librecompat.Hsearch.Create
import Librecompat.Lib.Probing
import Librecompat.Hsearch.Search
import Librecompat.Hsearch.Refine
import Librecompat.Getopt.Model
import Librecompat.Getopt.Options
import Librecompat.Getopt.Elements
import Librecompat.Getopt.LongMatch
import Librecompat.Getopt.Taken
import Librecompat.Getopt.Calls
import Librecompat.Getopt.Permute
import Librecompat.Getopt.Orderings
import Librecompat.Getopt.Bounds
import Librecompat.Lib.Memory
import Librecompat.Obstack.Model
import Librecompat.Obstack.Chunks
import Librecompat.Obstack.Grow
import Librecompat.Obstack.Objects
import Librecompat.Dynarray.Calls
import Librecompat.Dynarray.Failed
import Librecompat.Argz.Insert
import Librecompat.Argz.Replace
import Librecompat.Strverscmp.Model
import Librecompat.Strverscmp.Order
import Librecompat.Regex.Histories
import Librecompat.Wordexp.Errors
import Librecompat.Wordexp.Inside
import Librecompat.Wordexp.Restore
import Librecompat.Fcntl.Fallocate
import Librecompat.Fcntl.Fadvise
import Librecompat.Strchrnul
import Librecompat.PwScan.Records
import Librecompat.Netconfig.Print
import Librecompat.Services.Records
import Librecompat.Setproctitle.Runs
import Librecompat.LookupServ.Exact
import Librecompat.Getusershell.Buffers
import Librecompat.Getusershell.Enumerate
import Librecompat.Getopt.LongEffect
import Librecompat.Obstack.Concat
import Librecompat.Strverscmp.Numbers
import Librecompat.Hsearch.NextPrime
import Librecompat.NodeSet.Runs
import Librecompat.Eclosure.Inverse
import Librecompat.RegTree.Languages
import Librecompat.RegTree.OptionalMarks
import Librecompat.Hsearch.Walk
import Librecompat.Grouping.Partition
import Librecompat.Regcomp.Locations
import Librecompat.Regcomp.Overflow
import Librecompat.Regexec.Searches
