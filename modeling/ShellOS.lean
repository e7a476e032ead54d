import ShellOS.Ready.LastLine
import ShellOS.Ready.Commands
import ShellOS.Ready.LineScan
import ShellOS.Ready.LineCalls
import ShellOS.Ready.LineBuffers
import ShellOS.Ready.SortQueue
import ShellOS.Ready.Recency
import ShellOS.Ready.ScriptRun
import ShellOS.Ready.Arguments
import ShellOS.Ready.Variables
import ShellOS.Pager.Termination
import ShellOS.Pager.FaultSignal
import ShellOS.Shell.Identify
import ShellOS.Fs.Capacity
import ShellOS.Fs.Requests
import ShellOS.Fs.Eviction
import ShellOS.Fs.FirstFit
import ShellOS.Fs.Cancel
import ShellOS.Fs.WriteLength
import ShellOS.Fs.FindFile
import ShellOS.Fs.Fragmentation
import ShellOS.Fs.Recover
import ShellOS.Fs.DirTable
import ShellOS.Fs.Access
import ShellOS.Fs.Device
import ShellOS.Fs.DirRuns
import ShellOS.Shell.Chaining
import ShellOS.Fs.Tree
import ShellOS.Fs.Arithmetic
import ShellOS.Fs.Inode
import ShellOS.Lib.BlockTree
import ShellOS.Fs.Cache
import ShellOS.Fs.Bitmap
import ShellOS.Pager.LineCount
import ShellOS.Shell.Words
import ShellOS.Ready.FrameShape
import ShellOS.Fs.PathBuffers
import ShellOS.Fs.CopyIn
import ShellOS.Fs.CopyOut
import ShellOS.Fs.NulEnd
import ShellOS.Fs.FileStore
import ShellOS.Fs.Remount
import ShellOS.Fs.ListCalls
import ShellOS.Pager.LinkedList
