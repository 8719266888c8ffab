import RehldsM.Lib.Run
import RehldsM.Lib.Backlog
import RehldsM.Lib.Ring
import RehldsM.Lib.Terminal
import RehldsM.Lib.Zipper
import RehldsM.Lib.Words
import RehldsM.Lib.Layout
import RehldsM.Lib.Spacing
import RehldsM.Lib.Traversal
import RehldsM.Lib.Monitor
import RehldsM.Lib.CallOnce
import RehldsM.Lib.Cycle
import RehldsM.Lib.CommonPrefix
import RehldsM.Lib.Smoothing
import RehldsM.Lib.Settling
import RehldsM.Lib.Positional
import RehldsM.Lib.Scopes
import RehldsM.Lib.Linearization
import RehldsM.Lib.Projection
import RehldsM.Lib.Throttle
import RehldsM.Util.Strings
import RehldsM.Util.Numerals
import RehldsM.Util.File
import RehldsM.Util.CircularBuffer
import RehldsM.Util.CircularBufferDeque
import RehldsM.Util.ThreadsafeQueue
import RehldsM.Util.QueueLinearization
import RehldsM.Util.Observable
import RehldsM.Util.Lifecycle
import RehldsM.Util.Signal
import RehldsM.Util.Singleton
import RehldsM.Util.SingletonThreads
import RehldsM.Util.SingletonOrder
import RehldsM.Util.Fmt
import RehldsM.Util.Logger
import RehldsM.Common.ObjectList
import RehldsM.Common.ObjectContainer
import RehldsM.Common.ModuleWrapper
import RehldsM.Common.InterfaceRegistry
import RehldsM.Core.CmdlineArgs
import RehldsM.Core.CmdlineTokens
import RehldsM.Core.CmdlineLookup
import RehldsM.Core.CmdlineRemove
import RehldsM.Core.CmdlineTakeOut
import RehldsM.Core.CmdlineCapture
import RehldsM.Core.CmdlineGaps
import RehldsM.Core.CmdlineLeftOver
import RehldsM.Core.CmdlineRemoveExact
import RehldsM.Core.CmdlineOption
import RehldsM.Core.CmdlinePush
import RehldsM.Core.CmdlineSettings
import RehldsM.Core.CmdlineProcessor
import RehldsM.Core.CmdlineProcessorGaps
import RehldsM.Core.ConsoleLog
import RehldsM.Core.CmdlineFiles
import RehldsM.Core.CmdlineIncludes
import RehldsM.Core.CmdlineNormalForm
import RehldsM.Model.ServerLoop
import RehldsM.Model.ServerLoopDelivery
import RehldsM.Model.ServerLoopProgress
import RehldsM.Model.ServerLoopPasses
import RehldsM.Model.ServerStatus
import RehldsM.Model.SleepTimer
import RehldsM.Model.AdaptiveSleep
import RehldsM.Model.FrameRate
import RehldsM.Model.ServerLoopSettings
import RehldsM.Model.UserinputHistory
import RehldsM.Model.UserinputHistorySave
import RehldsM.Model.UserinputHistoryWalk
import RehldsM.Model.UserinputHistoryFile
import RehldsM.Model.ConsoleCommands
import RehldsM.Core.Init
import RehldsM.Core.NumericOptions
import RehldsM.Presenter.OutputPresenter
import RehldsM.View.ConsoleView
import RehldsM.View.ConsoleInput
import RehldsM.View.LineEditor
import RehldsM.View.ConsoleRow
import RehldsM.View.Draft
import RehldsM.View.TabCompletion
import RehldsM.View.CommandList
import RehldsM.View.HistoryRestarts
import RehldsM.View.LinuxConsoleInput
import RehldsM.View.WindowsConsoleInput
import RehldsM.View.TerminalSettings
import RehldsM.Hlds.RunServerLoop
import RehldsM.Hlds.Shutdown
import RehldsM.Hlds.TerminalSession
import RehldsM.Hlds.ConsoleSession
