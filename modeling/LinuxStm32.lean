import LinuxStm32.Mm.DmamemFirstFit
import LinuxStm32.Drivers.Net.EthSram
import LinuxStm32.Drivers.Net.EthTxOwnership
import LinuxStm32.Drivers.Net.EthRxFrame
import LinuxStm32.Drivers.Net.EthRxWakeup
import LinuxStm32.Drivers.Serial.UsartRxDelivery
import LinuxStm32.Drivers.Rtc.RtcAlarm
import LinuxStm32.Drivers.Rtc.RtcSnapshot
import LinuxStm32.Drivers.Serial.UsartBaud
import LinuxStm32.Mach.DmacOwnership
import LinuxStm32.Mach.Clock
import LinuxStm32.Mach.Iomux
import LinuxStm32.Mach.GpioTrigger
import LinuxStm32.Mach.TickTimer
import LinuxStm32.Drivers.Spi.SpiStm32
import LinuxStm32.Drivers.Spi.SpiQueue
import LinuxStm32.Drivers.I2c.I2cStm32f7
import LinuxStm32.Drivers.Video.FbFile
import LinuxStm32.Drivers.Usb.Dwc2Bandwidth
import LinuxStm32.Drivers.Mmc.MmciPairing
import LinuxStm32.Drivers.Mmc.MmciClock
import LinuxStm32.Drivers.Mtd.Stm32f4Flash
import LinuxStm32.Mm.NommuMunmap
import LinuxStm32.Mm.NommuTrim
import LinuxStm32.Mm.NommuRegions
import LinuxStm32.Mm.PcpDrain
import LinuxStm32.Fs.BinfmtFlatArgs
import LinuxStm32.Fs.RamfsNommu
import LinuxStm32.Fs.FatAlloc
import LinuxStm32.Fs.FatTime
import LinuxStm32.Kernel.TimerRuns
import LinuxStm32.Fs.LocksPosix
import LinuxStm32.Tools.TftpConfinement
import LinuxStm32.Mm.VmaRuns
import LinuxStm32.Mm.NommuShrink
import LinuxStm32.Scripts.FixdepDeps
import LinuxStm32.Scripts.FixdepConfig
import LinuxStm32.Mm.MmapRamfs
import LinuxStm32.Mm.MmapSharing
import LinuxStm32.Fs.ExecStrings
import LinuxStm32.Fs.LocksWaiting
