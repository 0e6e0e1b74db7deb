import Feather.OrderedTree.Forest
import Feather.OrderedTree.Edit
import Feather.OrderedTree.Walk
import Feather.OrderedTree.Build
import Feather.OrderedTree.Parts
import Feather.OrderedTree.Family
import Feather.OrderedTree.Replace
import Feather.Program.Run
import Feather.Program.Calls
import Feather.Async.System
import Feather.Strings.Words
import Feather.Keyed.Tree
import Feather.XML.Foundation
import Feather.XML.World
import Feather.XML.Traversal
import Feather.XML.Create
import Feather.XML.Space
import Feather.XML.TextContent
import Feather.XML.TextOffset
import Feather.XML.Normalize
import Feather.XML.Delete
import Feather.XML.Recreate
import Feather.XML.Split
import Feather.XML.SplitFailure
import Feather.XML.Filter
import Feather.XML.Filtered
import Feather.XML.FilterCorrect
import Feather.XML.Ampersand
import Feather.XML.Whitespace
import Feather.XML.ClassAttribute
import Feather.XML.ChildLists
import Feather.XML.SpaceFixes
import Feather.XML.Document
import Feather.XML.Namespaces
import Feather.XML.Search
import Feather.Model.Saving
import Feather.Model.EmbeddedObject
import Feather.Model.Change
import Feather.Model.Persist
import Feather.Model.NeedsSave
import Feather.Model.Batch
import Feather.Model.DeepSave
import Feather.Sync.State
import Feather.Sync.Record
import Feather.Sync.Push
import Feather.Sync.Synchronize
import Feather.Sync.Pull
import Feather.Sync.Interleaving
import Feather.Sync.Listing
import Feather.Embedding.Values
import Feather.Embedding.Getters
import Feather.Embedding.RoundTrip
import Feather.Embedding.Setters
import Feather.Embedding.History
import Feather.Sync.Objects
import Feather.Sync.Serializer
import Feather.Sync.Reserialize
import Feather.Sync.References
import Feather.Sync.Deserializer
import Feather.Sync.Fields
import Feather.Sync.RecordRoundTrip
import Feather.Sync.Replay
import Feather.Sync.Delivery
import Feather.Order.Comparator
import Feather.Order.Moving
import Feather.Order.Arrangements
import Feather.Order.Ancestry
import Feather.Controllers.Conflicts
import Feather.Controllers.Hierarchy
import Feather.Controllers.Equivalence
import Feather.Controllers.References
import Feather.Controllers.Contributors
import Feather.Controllers.BundledData
import Feather.Controllers.Validation
import Feather.Controllers.Deletion
import Feather.Controllers.Import
import Feather.Controllers.Prototypes
import Feather.Controllers.Snapshots
import Feather.Controllers.DocumentAccess
import Feather.Controllers.ErrorPointers
import Feather.Extensions.Permutations
import Feather.Extensions.Chunks
import Feather.Extensions.TreeItems
import Feather.Extensions.RegularExpressions
import Feather.Extensions.Removing
import Feather.Extensions.JSONStrings
import Feather.Extensions.UUID
import Feather.Extensions.CommonAncestor
import Feather.Model.Effective
import Feather.Controllers.Lookup
import Feather.Controllers.Me
import Feather.Model.ChangeTag
import Feather.Model.Notifications
