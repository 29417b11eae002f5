import Sbpfs.Lib.Program
import Sbpfs.Lib.Memory
import Sbpfs.Lib.Chain
import Sbpfs.Cfs.Layout
import Sbpfs.Cfs.Fat
import Sbpfs.Cfs.File
import Sbpfs.Cfs.Lookup
import Sbpfs.Cfs.Namespace
import Sbpfs.Cfs.Data
import Sbpfs.Cfs.Rules
import Sbpfs.Cfs.FatSpec
import Sbpfs.Cfs.FatLaws
import Sbpfs.Cfs.FileSpec
import Sbpfs.Spec.FileTree
import Sbpfs.Spec.Resolve
import Sbpfs.Cfs.Image
import Sbpfs.Cfs.DiskStore
import Sbpfs.Cfs.LookupSpec
import Sbpfs.Cfs.Edit
import Sbpfs.Cfs.ObjectSpec
import Sbpfs.Cfs.Mkfs
import Sbpfs.Cfs.NamespaceSpec
import Sbpfs.Cfs.HeaderSpec
import Sbpfs.Cfs.BlockSpec
import Sbpfs.Cfs.PlacementLaws
import Sbpfs.Cfs.DataSpec
import Sbpfs.Cfs.Query
import Sbpfs.Cfs.QuerySpec
import Sbpfs.Cfs.EntrySpec
import Sbpfs.Cfs.OpenSpec
import Sbpfs.Cfs.DiskView
import Sbpfs.Cfs.Calls
import Sbpfs.Cfs.RunSpec
import Sbpfs.Cfs.Invariants
import Sbpfs.Cfs.FileHeaders
import Sbpfs.Cfs.LinkCounts
import Sbpfs.Cfs.Persist
import Sbpfs.Cfs.PersistSpec
import Sbpfs.Cfs.BlockNumbers
import Sbpfs.Cfs.BlockListing
import Sbpfs.Cfs.ChainLaws
import Sbpfs.Cfs.CountLaws
import Sbpfs.Spec.Components
import Sbpfs.Spec.Cut
import Sbpfs.Cfs.PathLaws
import Sbpfs.Cfs.NamespaceLaws
import Sbpfs.Cfs.ResolverLaws
import Sbpfs.Cfs.DirectoryListing
import Sbpfs.Cfs.RemovalLaws
import Sbpfs.Cfs.EntryErasure
import Sbpfs.Cfs.OpenLaws
import Sbpfs.Cfs.MoveLaws
import Sbpfs.Cfs.HalfDone
import Sbpfs.Cfs.ErrorLaws
import Sbpfs.Cfs.TilingLaws
import Sbpfs.Cfs.RecordLengths
import Sbpfs.Cfs.Totality
import Sbpfs.Lib.Search
import Sbpfs.Lib.Tiling
import Sbpfs.Lib.Raise
import Sbpfs.Lib.Pack
import Sbpfs.Wire.Head
import Sbpfs.Wire.Number
import Sbpfs.Wire.HeadSpec
import Sbpfs.Wire.HeadSafety
import Sbpfs.Libc.Request
import Sbpfs.Libc.RequestSpec
import Sbpfs.Libc.Recv
import Sbpfs.Libc.RecvSpec
import Sbpfs.Libc.FramingLaws
import Sbpfs.Libc.Table
import Sbpfs.Libc.TableSpec
import Sbpfs.Libc.Transfer
import Sbpfs.Libc.TransferSpec
import Sbpfs.Libc.TransferLaws
import Sbpfs.Dnode.Blockman
import Sbpfs.Dnode.Serve
import Sbpfs.Dnode.BlockSpec
import Sbpfs.Dnode.BlockStore
import Sbpfs.Dnode.ListSpec
import Sbpfs.Dnode.BlockList
import Sbpfs.Dnode.ServeLaws
import Sbpfs.Cnode.FieldSpec
import Sbpfs.Cnode.Connection
import Sbpfs.Cnode.LoginLaws
import Sbpfs.Cnode.Fragments
import Sbpfs.Cnode.Pool
import Sbpfs.Cnode.Users
import Sbpfs.Cnode.Libcfs
import Sbpfs.Cnode.DTree
import Sbpfs.Cnode.Addresses
import Sbpfs.Cnode.Ops
import Sbpfs.Cnode.Frame
import Sbpfs.Cnode.Descriptors
import Sbpfs.Cnode.DiskSteps
import Sbpfs.Cnode.OpenObjects
import Sbpfs.Cnode.Homes
import Sbpfs.Cnode.DescriptorTypes
import Sbpfs.Cnode.FileAccess
import Sbpfs.Cnode.RemovedFiles
import Sbpfs.Cnode.Dispatch
import Sbpfs.Cnode.ReplyLaws
import Sbpfs.Cnode.Replicas
import Sbpfs.Cnode.LibCalls
import Sbpfs.Cnode.RequestFields
import Sbpfs.Cnode.Marshalling
import Sbpfs.Cnode.LostFiles
import Sbpfs.Cnode.Reading
import Sbpfs.Cnode.Finishing
import Sbpfs.Cnode.Answers
import Sbpfs.Net.Parties
import Sbpfs.Net.TransferSteps
import Sbpfs.Net.Copies
import Sbpfs.Net.Granting
import Sbpfs.Net.FailedWrites
import Sbpfs.Net.Acknowledged
import Sbpfs.Net.Mirror
import Sbpfs.Net.ReadSteps
import Sbpfs.Net.Contents
import Sbpfs.Net.FileArray
import Sbpfs.Cnode.Serving
import Sbpfs.Cnode.ConnectionRuns
import Sbpfs.Dnode.Report
import Sbpfs.Net.Reporting
import Sbpfs.Net.FileCopy
import Sbpfs.Lib.Cursor
import Sbpfs.Libc.Directory
import Sbpfs.Net.Queries
import Sbpfs.Net.Listing
import Sbpfs.Net.Isolation
import Sbpfs.Net.Messages
import Sbpfs.Net.Replies
import Sbpfs.Net.Carried
