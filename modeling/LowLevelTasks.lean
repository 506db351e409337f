import LowLevelTasks.Lab0
import LowLevelTasks.Runs
import LowLevelTasks.SequentialList
import LowLevelTasks.Partition
import LowLevelTasks.Lab2Add
import LowLevelTasks.AddRuns
import LowLevelTasks.ElementLists
import LowLevelTasks.Lab2ListA
import LowLevelTasks.ListARuns
import LowLevelTasks.Lab2ListB
import LowLevelTasks.MessageStream
import LowLevelTasks.Display
import LowLevelTasks.EndOfFile
import LowLevelTasks.Keystrokes
import LowLevelTasks.Shutdown
import LowLevelTasks.ConsistentReport
import LowLevelTasks.CsvRoundTrip
import LowLevelTasks.Lab4b
import LowLevelTasks.Lab4c
import LowLevelTasks.FreeNumbers
import LowLevelTasks.InodeTable
import LowLevelTasks.DirectoryChains
import LowLevelTasks.PointerBlocks
import LowLevelTasks.GroupCount
import LowLevelTasks.ByteAddresses
import LowLevelTasks.DirentOffsets
import LowLevelTasks.PrintedRecords
import LowLevelTasks.EntryNames
import LowLevelTasks.BlockAllocation
import LowLevelTasks.DuplicateReports
import LowLevelTasks.ReferenceMessages
import LowLevelTasks.PointerClasses
import LowLevelTasks.ParentErrors
import LowLevelTasks.InodeReports
import LowLevelTasks.LinkCounts
import LowLevelTasks.Diagnoses
import LowLevelTasks.DiskFindings
import LowLevelTasks.Findings
import LowLevelTasks.LengthCheck
import LowLevelTasks.LockBalance
import LowLevelTasks.FinalCheck
import LowLevelTasks.CountPass
import LowLevelTasks.ListBRuns
import LowLevelTasks.ListBAccesses
import LowLevelTasks.BinShares
import LowLevelTasks.WaitTimes
import LowLevelTasks.ReadCuts
import LowLevelTasks.PayloadRoundTrip
import LowLevelTasks.SocketCipher
import LowLevelTasks.LogRecords
import LowLevelTasks.TerminalControl
import LowLevelTasks.TerminalRelay
import LowLevelTasks.LineBuffer
import LowLevelTasks.Commands
import LowLevelTasks.SensorSessions
import LowLevelTasks.LineWidths
import LowLevelTasks.ArgumentArithmetic
import LowLevelTasks.AppendCsv
