import Tyche.Lib.Bits
import Tyche.Lib.Bytes
import Tyche.Lib.Cursor
import Tyche.Lib.Ledger
import Tyche.Lib.Loop
import Tyche.Lib.Radix
import Tyche.Lib.Ranges
import Tyche.Lib.View
import Tyche.Capa.Types
import Tyche.Capa.Api
import Tyche.Capa.Tracker
import Tyche.Capa.Steps
import Tyche.Capa.Runs
import Tyche.Capa.Startup
import Tyche.Capa.Handles
import Tyche.Capa.Coverage
import Tyche.Capa.Exclusive
import Tyche.Capa.Revocable
import Tyche.Capa.Status
import Tyche.Capa.Mirror
import Tyche.Capa.Restore
import Tyche.Capa.Delivery
import Tyche.Capa.Subranges
import Tyche.Capa.Merging
import Tyche.Capa.Blocks
import Tyche.Pts.Walk
import Tyche.Pts.Erasure
import Tyche.Pts.X86
import Tyche.Pts.Tables
import Tyche.Pts.Rights
import Tyche.Pts.Sweep
import Tyche.Pts.Trace
import Tyche.Pts.Errors
import Tyche.Pts.Descent
import Tyche.Pts.Positions
import Tyche.Pts.Visit
import Tyche.Pts.Fill
import Tyche.Dll.List
import Tyche.Enclave.Types
import Tyche.Enclave.AllPages
import Tyche.Enclave.Regions
import Tyche.Enclave.Insertion
import Tyche.Enclave.Kernel
import Tyche.Enclave.Mapper
import Tyche.Enclave.Mapping
import Tyche.Enclave.AddressSpace
import Tyche.Enclave.Representable
import Tyche.Enclave.Process
import Tyche.Enclave.Commit
import Tyche.Enclave.Driver
import Tyche.Enclave.Effects
import Tyche.Enclave.Collecting
import Tyche.Enclave.Commands
import Tyche.Enclave.Entering
import Tyche.Enclave.Frames
import Tyche.Enclave.Ownership
import Tyche.Enclave.Failure
import Tyche.Enclave.Shortage
import Tyche.Enclave.Placing
import Tyche.Enclave.Requests
import Tyche.Enclave.Transfer
import Tyche.Enclave.Permissions
import Tyche.Enclave.Library
import Tyche.Enclave.Deletion
import Tyche.Enclave.Contents
import Tyche.Enclave.Isolation
import Tyche.Enclave.Reclaiming
import Tyche.Enclave.Writes
import Tyche.Enclave.Lasting
import Tyche.Elf.Types
import Tyche.Elf.Read
import Tyche.Elf.Symbols
import Tyche.Elf.Inside
import Tyche.Elf.Format
import Tyche.Loader.Parse
import Tyche.Loader.Described
import Tyche.Loader.Map
import Tyche.Loader.Segments
import Tyche.Loader.Load
import Tyche.Loader.Image
import Tyche.Loader.Running
import Tyche.Loader.Rights
import Tyche.Loader.Message
import Tyche.Loader.Plugin
import Tyche.Loader.Gate
import Tyche.Loader.Tracing
import Tyche.Loader.Resources
