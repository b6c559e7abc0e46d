import SamOS.PmmOwnership
import SamOS.PmmCount
import SamOS.PmmFirstFit
import SamOS.HeapRuns
import SamOS.Scheduler
import SamOS.Turns
import SamOS.ContextRuns
import SamOS.ProcessLaws
import SamOS.SpawnLaws
import SamOS.SpawnFailure
import SamOS.Isolation
import SamOS.Confinement
import SamOS.KernelMap
import SamOS.Bootloader
import SamOS.BootPlacement
import SamOS.Keyboard
import SamOS.KeyboardRuns
import SamOS.KeyboardRing
import SamOS.Teardown
import SamOS.VmmLaws
import SamOS.Klog
import SamOS.IrqLaws
import SamOS.Timer
import SamOS.StackOverlap
import SamOS.ExitStatus
import SamOS.Display
import SamOS.ShellHistory
import SamOS.Yield
import SamOS.HeapLaws
import SamOS.LoadBounds
import SamOS.HeapNeutral
import SamOS.IrqRegisters
import SamOS.MadtWalk
import SamOS.AmlDecode
import SamOS.DisplayErase
import SamOS.ShellCommand
import SamOS.FramebufferMap
import SamOS.DisplayCursor
import SamOS.DecimalOutput
import SamOS.Rtc
import SamOS.TrapFrame
import SamOS.PicRuns
import SamOS.DescriptorTables
import SamOS.Tlb
import SamOS.Waiting
import SamOS.Poweroff
