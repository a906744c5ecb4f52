import Maloader.Lib.Bytes
import Maloader.Lib.Memory
import Maloader.Lib.Leb128
import Maloader.Lib.Chain
import Maloader.Lib.Slots
import Maloader.Lib.Loops
import Maloader.Lib.Patch
import Maloader.Lib.Walk
import Maloader.Lib.While
import Maloader.Lib.Pages
import Maloader.Lib.Fallible
import Maloader.Lib.Fill
import Maloader.Lib.Once
import Maloader.Lib.Log
import Maloader.Lib.Records
import Maloader.MachO
import Maloader.Encode
import Maloader.Context
import Maloader.Bind.Model
import Maloader.Bind.Program
import Maloader.Bind.Rows
import Maloader.Bind.Laws
import Maloader.Bind.Reads
import Maloader.Bind.Turns
import Maloader.Bind.Range
import Maloader.Bind.Cut
import Maloader.Segment.Model
import Maloader.Chained.Model
import Maloader.Chained.Walk
import Maloader.Chained.Limit
import Maloader.Chained.Reference
import Maloader.Chained.Relate
import Maloader.Chained.Bounds
import Maloader.Chained.Frame
import Maloader.Chained.Tables
import Maloader.Loader.Model
import Maloader.Loader.Handlers
import Maloader.Loader.Commands
import Maloader.Segment.Hull
import Maloader.Segment.Image
import Maloader.Segment.Reference
import Maloader.Loader.Spec
import Maloader.Loader.Slide
import Maloader.Host.Model
import Maloader.Host.Classic
import Maloader.Host.Resolve
import Maloader.Host.Slots
import Maloader.Host.Names
import Maloader.Host.Load
import Maloader.Host.Bounds
import Maloader.Host.Shims
import Maloader.Host.Handles
import Maloader.Host.Accesses
import Maloader.Loader.Turns
import Maloader.Loader.Executable
import Maloader.Loader.Inside
import Maloader.Loader.TwoFiles
import Maloader.Loader.Reorder
import Maloader.Loader.Move
import Maloader.Segment.Layout
import Maloader.Segment.Records
import Maloader.Loader.Entries
import Maloader.Loader.Counters
import Maloader.Loader.Mapping
import Maloader.Loader32.Model
import Maloader.Loader32.Commands
import Maloader.Loader32.Mapping
import Maloader.Loader32.Spec
import Maloader.Main.Model
import Maloader.Main.Outcome
import Maloader.Main.Image
import Maloader.Main.Image32
import Maloader.Link.Commands
import Maloader.Link.Pointers
import Maloader.Link.Payload
import Maloader.Link.Image
import Maloader.Main.Linked
import Maloader.Link.Program
import Maloader.Main.Program
