import RpiVm.Lib.BitField
import RpiVm.Kmalloc
import RpiVm.Mmu.Descriptor
import RpiVm.Mmu.Map
import RpiVm.Mmu.Table
import RpiVm.Mmu.Layout
import RpiVm.Mmu.Effect
import RpiVm.Mmu.Refinement
import RpiVm.Lib.Run
import RpiVm.Mmu.World
import RpiVm.Mmu.Mapping
import RpiVm.Mmu.Separation
import RpiVm.Env.Bvec
import RpiVm.Env.Cp15
import RpiVm.Env.Kernel
import RpiVm.Env.Isolation
import RpiVm.Mmu.Bringup
import RpiVm.Env.Tlb
import RpiVm.Fault.DataAbort
import RpiVm.Env.System
import RpiVm.Env.VmTests
import RpiVm.Fault.Reboot
import RpiVm.Lib.Channel
import RpiVm.Lib.Framing
import RpiVm.Boot.Crc32
import RpiVm.Boot.Protocol
import RpiVm.Boot.Image
import RpiVm.Boot.Exchange
import RpiVm.Boot.Corruption
import RpiVm.Boot.Loader
import RpiVm.Heap
import RpiVm.Env.KernelMap
import RpiVm.Mmu.Alignment
import RpiVm.Mmu.Domains
import RpiVm.Mmu.Debug
import RpiVm.Env.Exhaustion
import RpiVm.Env.Switching
import RpiVm.Boot.Grammar
import RpiVm.Lib.LinkedList
import RpiVm.Lib.Stdio
import RpiVm.Replay.Queue
import RpiVm.Replay.Trace
import RpiVm.Replay.ParseInput
import RpiVm.Replay.RoundTrip
import RpiVm.Replay.Process
import RpiVm.Replay.Verdict
import RpiVm.Replay.Soundness
import RpiVm.HeapBounds
import RpiVm.Fault.Resume
import RpiVm.Lib.Arm
import RpiVm.Fault.Syscall
import RpiVm.Env.Accessors
import RpiVm.Lib.Checked
import RpiVm.Pwm
import RpiVm.Gpio
import RpiVm.Lib.Matching
import RpiVm.Boot.Shutdown
import RpiVm.Replay.Reader
import RpiVm.Lib.Buffer
import RpiVm.Snprintk
import RpiVm.Format
import RpiVm.Lib.Copy
import RpiVm.Stdlib
import RpiVm.Env.FreeList
import RpiVm.Lib.FreeList
import RpiVm.Replay.ReadExact
import RpiVm.Lib.Isa
import RpiVm.Fault.Vectors
import RpiVm.Lib.Confluence
import RpiVm.Lib.Recording
import RpiVm.Replay.Child
import RpiVm.Replay.Driver
import RpiVm.Xmodem.Heard
import RpiVm.Xmodem.Sender
import RpiVm.Xmodem.Delivery
import RpiVm.Xmodem.Timer
import RpiVm.Xmodem.Acks
import RpiVm.Xmodem.Recovery
import RpiVm.Xmodem.EarlyBranch
import RpiVm.Uart.Device
import RpiVm.Uart.Init
import RpiVm.Uart.Refinement
import RpiVm.Uart.Boot
import RpiVm.Fault.UserMode
import RpiVm.Fault.UserRun
import RpiVm.Fault.UserWrites
import RpiVm.GpioPins
