import Mp3Kernel.Kernel.State
import Mp3Kernel.Kernel.Paging
import Mp3Kernel.Kernel.Console
import Mp3Kernel.Kernel.FileSystem
import Mp3Kernel.Kernel.Descriptors
import Mp3Kernel.Kernel.Process
import Mp3Kernel.Kernel.UserCalls
import Mp3Kernel.Kernel.Keyboard
import Mp3Kernel.Lib.Run
import Mp3Kernel.Lib.Forest
import Mp3Kernel.Lib.SlotTable
import Mp3Kernel.Lib.Stream
import Mp3Kernel.Lib.Interleave
import Mp3Kernel.Lib.Layout
import Mp3Kernel.Lib.LineEdit
import Mp3Kernel.Lib.Ticks
import Mp3Kernel.Lib.Field
import Mp3Kernel.Lib.Traced
import Mp3Kernel.Lib.WordMemory
import Mp3Kernel.Lib.X86
import Mp3Kernel.Lib.X86Frames
import Mp3Kernel.Lib.BitFields
import Mp3Kernel.Lib.Pic8259
import Mp3Kernel.Kernel.ArrayAccess
import Mp3Kernel.Kernel.Machine
import Mp3Kernel.Kernel.SystemCall
import Mp3Kernel.Kernel.MemoryBlocks
import Mp3Kernel.Kernel.Printf
import Mp3Kernel.Kernel.PageWords
import Mp3Kernel.Kernel.Gates
import Mp3Kernel.Kernel.Wrappers
import Mp3Kernel.Kernel.InterruptController
import Mp3Kernel.Kernel.UserStubs
import Mp3Kernel.Laws.ProcessSteps
import Mp3Kernel.Laws.DescriptorSteps
import Mp3Kernel.Laws.ProcessTable
import Mp3Kernel.Laws.Calls
import Mp3Kernel.Laws.Arguments
import Mp3Kernel.Laws.HaltIsolation
import Mp3Kernel.Laws.Isolation
import Mp3Kernel.Laws.VideoPage
import Mp3Kernel.Laws.VidmapFlags
import Mp3Kernel.Laws.Remapping
import Mp3Kernel.Laws.Listing
import Mp3Kernel.Laws.RtcPeriod
import Mp3Kernel.Laws.DescriptorTable
import Mp3Kernel.Laws.NameLookup
import Mp3Kernel.Laws.Transfer
import Mp3Kernel.Laws.CommandParsing
import Mp3Kernel.Laws.UserPointers
import Mp3Kernel.Laws.FileStream
import Mp3Kernel.Laws.FilePositions
import Mp3Kernel.Laws.Loader
import Mp3Kernel.Laws.Executables
import Mp3Kernel.Laws.BaseShell
import Mp3Kernel.Laws.TextPage
import Mp3Kernel.Laws.FailedExecute
import Mp3Kernel.Laws.Output
import Mp3Kernel.Laws.Screen
import Mp3Kernel.Laws.LineDiscipline
import Mp3Kernel.Laws.LineResidue
import Mp3Kernel.Laws.Background
import Mp3Kernel.Laws.VisibleKeys
import Mp3Kernel.Laws.KeyView
import Mp3Kernel.Laws.Backspace
import Mp3Kernel.Laws.ConsolePage
import Mp3Kernel.Laws.RtcRates
import Mp3Kernel.Laws.Modifiers
import Mp3Kernel.Laws.Linkage
import Mp3Kernel.Laws.MemoryBlocks
import Mp3Kernel.Laws.MemoryMoves
import Mp3Kernel.Laws.Numerals
import Mp3Kernel.Laws.FormatScan
import Mp3Kernel.Laws.Gates
import Mp3Kernel.Laws.Wrappers
import Mp3Kernel.Laws.SystemCallPath
import Mp3Kernel.Laws.PageWords
import Mp3Kernel.Laws.InterruptControl
import Mp3Kernel.Kernel.Exceptions
import Mp3Kernel.Laws.FormatPieces
import Mp3Kernel.Lib.LinkedList
import Mp3Kernel.User.Blink
import Mp3Kernel.Laws.BlinkList
import Mp3Kernel.Laws.BlinkScreen
import Mp3Kernel.User.Fish
import Mp3Kernel.Laws.FishFrames
import Mp3Kernel.Lib.Interaction
import Mp3Kernel.User.Calls
import Mp3Kernel.User.Files
import Mp3Kernel.Laws.Undisturbed
import Mp3Kernel.Laws.UserStrings
import Mp3Kernel.Laws.CatFile
import Mp3Kernel.Lib.Pieces
import Mp3Kernel.Laws.GrepFile
import Mp3Kernel.Laws.LsListing
import Mp3Kernel.Laws.GrepDirectory
