import GtuOs.Multitasking.HandOff
import GtuOs.Multitasking.Promotion
import GtuOs.Multitasking.LastTask
import GtuOs.Multitasking.Forking
import GtuOs.Multitasking.Priority
import GtuOs.Multitasking.Protocol
import GtuOs.Multitasking.FullTable
import GtuOs.Multitasking.Rotation
import GtuOs.Multitasking.Isolation
import GtuOs.Multitasking.Turns
import GtuOs.Multitasking.Printing
import GtuOs.Multitasking.HomeworkTasks
import GtuOs.MemoryManagement.Safety
import GtuOs.MemoryManagement.FirstFit
import GtuOs.GlobalDescriptorTable
import GtuOs.HardwareCommunication.InterruptStubs
import GtuOs.Drivers.AmdReceive
import GtuOs.Drivers.Ata
import GtuOs.Gui.Dragging
import GtuOs.Gui.Drawing
import GtuOs.MouseToConsole
import GtuOs.Console.PrintInteger
import GtuOs.Console.TextMode
import GtuOs.HardwareCommunication.InterruptManager
import GtuOs.Kernel
import GtuOs.Lib.Blocks
import GtuOs.Lib.Fuel
import GtuOs.FatFileSystem.Reusing
import GtuOs.FatFileSystem.Capacity
import GtuOs.FatFileSystem.Changing
import GtuOs.FatFileSystem.Arguments
import GtuOs.FatFileSystem.WritingBack
import GtuOs.FatFileSystem.Accounting
import GtuOs.FatFileSystem.Keeping
import GtuOs.FatFileSystem.Passwords
import GtuOs.FatFileSystem.Allocation
import GtuOs.FatFileSystem.Refusing
import GtuOs.FatFileSystem.Refining
import GtuOs.FatFileSystem.Leaks
