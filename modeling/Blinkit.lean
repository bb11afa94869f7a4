import Blinkit.Lib.Tour
import Blinkit.Lib.Transition
import Blinkit.Lib.LinkedForest
import Blinkit.Lib.Ancestry
import Blinkit.Lib.DocumentOrder
import Blinkit.Lib.Climb
import Blinkit.Lib.Asking
import Blinkit.Lib.Tape
import Blinkit.Lib.Window
import Blinkit.Lib.Bisect
import Blinkit.Lib.Feeding
import Blinkit.Lib.Text
import Blinkit.Lib.Cursor
import Blinkit.Lib.DotSegments
import Blinkit.Lib.Escaping
import Blinkit.Dom.Heap
import Blinkit.Dom.ContainerNode
import Blinkit.Dom.ChildLists
import Blinkit.Dom.WellFormed
import Blinkit.Dom.Refinement
import Blinkit.Dom.Validity
import Blinkit.Dom.Operations
import Blinkit.Dom.Calls
import Blinkit.Dom.LostNodes
import Blinkit.Dom.Documents
import Blinkit.Dom.ScriptCalls
import Blinkit.Dom.Ledger
import Blinkit.Dom.Creation
import Blinkit.Dom.Ownership
import Blinkit.Dom.Collection
import Blinkit.Dom.Connectedness
import Blinkit.Dom.ChildConstraints
import Blinkit.Dom.DocumentChildren
import Blinkit.Dom.CollectionIndexCache
import Blinkit.Dom.CollectionItemsCache
import Blinkit.Dom.ElementTraversal
import Blinkit.Dom.HTMLCollection
import Blinkit.Dom.ChildrenChange
import Blinkit.Dom.ChildNodeList
import Blinkit.Dom.LiveCollections
import Blinkit.Dom.ElementData
import Blinkit.Dom.AttributeIsolation
import Blinkit.Text.EncodingRegistry
import Blinkit.Text.EncodingIdentity
import Blinkit.Text.TextCodec
import Blinkit.Text.TextCodecWin
import Blinkit.Text.TextResourceDecoder
import Blinkit.Text.DecoderChunks
import Blinkit.Text.ASCIIFastPath
import Blinkit.Text.Surrogates
import Blinkit.Text.TextCodecUTF8
import Blinkit.Text.UTF8Sequences
import Blinkit.Text.UTF8Chunks
import Blinkit.Text.UTF8RoundTrip
import Blinkit.Text.TextCodecUTF16
import Blinkit.Text.TextCodecLatin1
import Blinkit.Text.ResourceText
import Blinkit.Events.EventTarget
import Blinkit.Events.ListenerMap
import Blinkit.Events.SnapshotFiring
import Blinkit.Events.FiringRefinement
import Blinkit.Events.ListenerBindings
import Blinkit.Events.ListenerObjects
import Blinkit.Events.ListenerTable
import Blinkit.Events.KeepAlive
import Blinkit.Events.EventPath
import Blinkit.Events.EventDispatcher
import Blinkit.Http.WinRequest
import Blinkit.Http.Perform
import Blinkit.Http.HTTPLoaderTask
import Blinkit.Http.ResponseHeaders
import Blinkit.Http.HeaderMap
import Blinkit.Http.HeaderFaults
import Blinkit.Http.GZipInflate
import Blinkit.Http.ContentType
import Blinkit.Http.TerminalCallback
import Blinkit.Posix.TaskLoop
import Blinkit.Base.Time
import Blinkit.Posix.DelayedTask
import Blinkit.Platform.Timer
import Blinkit.Platform.SegmentedString
import Blinkit.Editing.MarkupFormatter
import Blinkit.Editing.FragmentSerialization
import Blinkit.Editing.ReplacedEntities
import Blinkit.Loader.ResourceLoader
import Blinkit.Loader.DocumentCompletion
import Blinkit.Script.ScriptRunner
import Blinkit.Script.AsyncScripts
import Blinkit.Dom.NthIndexCache
import Blinkit.Dom.CommonAncestor
import Blinkit.Dom.CollectedForest
import Blinkit.Dom.TreeOrderedMap
import Blinkit.Dom.ElementsById
import Blinkit.Dom.DerivedData
import Blinkit.Dom.DerivedState
import Blinkit.Html.HTMLDocumentParser
import Blinkit.Html.ParserLog
import Blinkit.Html.ParserBlockingScripts
import Blinkit.Html.HTMLConstructionSiteTask
import Blinkit.Html.ConstructionTasks
import Blinkit.Html.HTMLElementStack
import Blinkit.Html.CallTheAdoptionAgency
import Blinkit.Html.AdoptionAgency
import Blinkit.Html.OpenElements
import Blinkit.Html.AdoptionAgreement
import Blinkit.Html.NoahsArk
import Blinkit.Html.PendingText
import Blinkit.Html.HTMLEntitySearch
import Blinkit.Html.HTMLEntityParser
import Blinkit.Html.HTMLToken
import Blinkit.Html.HTMLTokenizer
import Blinkit.Url.UrlParse
import Blinkit.Url.BkURL
import Blinkit.Url.Redirection
import Blinkit.Css.CSSSelector
import Blinkit.Css.SelectorChecker
import Blinkit.Css.SelectorQuery
import Blinkit.Css.PrunedSearch
import Blinkit.Css.SelectorSemantics
import Blinkit.Html.EagerTokenizer
import Blinkit.Html.TokenizerRefinement
import Blinkit.Html.TokenChunks
import Blinkit.Html.SerializedText
