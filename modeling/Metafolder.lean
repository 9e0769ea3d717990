import Metafolder.Access
import Metafolder.Coordinated
import Metafolder.Depth
import Metafolder.DslAccepted
import Metafolder.Deriving
import Metafolder.KeybindingsSpelled
import Metafolder.TagAnswers
import Metafolder.ScriptCleanup
import Metafolder.GapLists
import Metafolder.Memory
import Metafolder.Replay
import Metafolder.ScopeRuns
import Metafolder.Trim
import Metafolder.SyncRun
import Metafolder.WatchRun
import Metafolder.Compacted
import Metafolder.Grouped
import Metafolder.FsActions
import Metafolder.Restored
import Metafolder.GrammarRecursion
import Metafolder.RevertDecisions
import Metafolder.CounterpartRuns
import Metafolder.LinkedReads
import Metafolder.PickerRuns
import Metafolder.TermWalks
import Metafolder.EventLayouts
import Metafolder.PairRuns
import Metafolder.RetoldEvents
import Metafolder.MountsReached
import Metafolder.WatchMaintained
import Metafolder.MovesTold
import Metafolder.DateTexts
import Metafolder.PositionsPlaced
import Metafolder.ValueKeys
import Metafolder.TextForms
import Metafolder.Cursors
import Metafolder.RememberedTypes
import Metafolder.TextSearches
import Metafolder.EvaluatedRows
import Metafolder.Retypes
import Metafolder.LogSearch
import Metafolder.NameReadings
import Metafolder.RecordBytes
import Metafolder.SchemaQuestions
import Metafolder.SchemaChecks
import Metafolder.ChildPages
