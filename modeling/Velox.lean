import Velox.Cpu.Acpi
import Velox.Drivers.Keyboard
import Velox.Drivers.NvmeQueueSafety
import Velox.Drivers.Pci
import Velox.Fs.DotDot
import Velox.Fs.Geometry
import Velox.Fs.GptNames
import Velox.Fs.PartitionSafety
import Velox.Fs.RandomAccess
import Velox.Fs.StoredName
import Velox.Fs.VfsCache
import Velox.Fs.VfsSpelling
import Velox.Kernel.Console
import Velox.Kernel.Isr
import Velox.Kernel.LockOrder
import Velox.Kernel.OutOfMemory
import Velox.Kernel.PrintkReference
import Velox.Kernel.Switch
import Velox.Mm.GlobalPages
import Velox.Mm.HeapFrames
import Velox.Mm.KmallocAgain
import Velox.Mm.Passthrough
import Velox.Mm.PmmHint
import Velox.Mm.ShootdownSafety
import Velox.Mm.VmallocRelease
import Velox.Mm.VmallocTable
