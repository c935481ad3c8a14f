import LinuxShare.Lib.Prog
import LinuxShare.Lib.Records
import LinuxShare.Lib.Ring
import LinuxShare.Netif.Rtnetlink
import LinuxShare.Netif.State
import LinuxShare.Netif.NetifEvent
import LinuxShare.Netif.Table
import LinuxShare.Netif.Message
import LinuxShare.Netif.Effect
import LinuxShare.Netif.Handle
import LinuxShare.Netif.EventLoop
import LinuxShare.Netif.Runs
import LinuxShare.Netif.Address
import LinuxShare.Netif.LinkState
import LinuxShare.Lib.Keyed
import LinuxShare.Netif.View
import LinuxShare.Netif.Integrity
import LinuxShare.Netif.Copies
import LinuxShare.Netif.Startup
import LinuxShare.Netif.EventState
import LinuxShare.Netif.KernelSync
import LinuxShare.Netif.Lifecycle
import LinuxShare.Lib.Rings
import LinuxShare.Lib.Scatter
import LinuxShare.Block.Bio
import LinuxShare.Block.DoQueue
import LinuxShare.Input.Report
import LinuxShare.Input.TouchScreen
import LinuxShare.Input.Contact
import LinuxShare.Input.KeyInput
import LinuxShare.Input.Release
import LinuxShare.Lib.Script
import LinuxShare.Netif.Threads
import LinuxShare.Netif.Discipline
import LinuxShare.Netif.Interleaving
import LinuxShare.Netif.Schedules
import LinuxShare.Gpio.HwControl
import LinuxShare.Gpio.Sharing
import LinuxShare.Lib.Serial
import LinuxShare.Sensor.Am2305
import LinuxShare.Sensor.Ds18b20
import LinuxShare.I2c.Smbus
import LinuxShare.Sensor.ReadContract
import LinuxShare.Dma.TheDma
import LinuxShare.Lib.Ledger
import LinuxShare.Modules.Cycles
import LinuxShare.Lib.Checksum
import LinuxShare.Net.VirNet
import LinuxShare.Mtd.NandFlash
import LinuxShare.Input.Sums
import LinuxShare.Counter.TimeAfter
import LinuxShare.Block.Mapping
import LinuxShare.Block.QueueLock
import LinuxShare.Lcd.Framebuffer
import LinuxShare.Netif.ParseRtattr
import LinuxShare.Lib.Descriptor
import LinuxShare.Sockets.Options
import LinuxShare.Sockets.TcpInit
import LinuxShare.Lib.Stream
import LinuxShare.Tools.Popen
import LinuxShare.Lib.Polling
import LinuxShare.Sensor.Line
import LinuxShare.Lib.Timed
import LinuxShare.Sensor.Waveform
import LinuxShare.Sensor.Temperature
import LinuxShare.Lcd.Palette
import LinuxShare.Dma.InitExit
import LinuxShare.Lib.Probe
import LinuxShare.Net.Interfaces
import LinuxShare.Tools.LogPrint
import LinuxShare.Lib.Blocks
import LinuxShare.Netif.FreeList
import LinuxShare.Lib.Slots
import LinuxShare.Sensor.OneWire
import LinuxShare.Lib.Layout
import LinuxShare.Netif.Debug
import LinuxShare.Lib.Pool
import LinuxShare.Usb.SkelFile
import LinuxShare.Usb.SkelRead
import LinuxShare.Usb.SkelSystem
import LinuxShare.Usb.SkelMutex
import LinuxShare.Usb.SkelStream
import LinuxShare.Usb.SkelResults
import LinuxShare.Usb.SkelCounts
import LinuxShare.Usb.SkelRefs
import LinuxShare.Usb.SkelProgress
import LinuxShare.Lib.Rcu
import LinuxShare.Rcu.Demo
import LinuxShare.Rcu.Blocks
import LinuxShare.Rcu.Ownership
import LinuxShare.Rcu.Safety
import LinuxShare.Rcu.Views
import LinuxShare.Rcu.Memory
