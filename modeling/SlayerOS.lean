import SlayerOS.Lib.Bytes
import SlayerOS.Lib.Run
import SlayerOS.Lib.Radix
import SlayerOS.Lib.Ring
import SlayerOS.Lib.Stack
import SlayerOS.Lib.Exchange
import SlayerOS.Lib.Fuel
import SlayerOS.Lib.Text
import SlayerOS.Frames.Code
import SlayerOS.Frames.Spec
import SlayerOS.Frames.Proofs
import SlayerOS.Frames.Address
import SlayerOS.Frames.Lost
import SlayerOS.Frames.Bounds
import SlayerOS.Frames.Stacks
import SlayerOS.Paging.Code
import SlayerOS.Paging.Spec
import SlayerOS.Paging.Tables
import SlayerOS.Paging.Proofs
import SlayerOS.Paging.Tlb
import SlayerOS.Paging.Owners
import SlayerOS.Paging.Exhausted
import SlayerOS.Paging.Demand
import SlayerOS.Mapper.Code
import SlayerOS.Mapper.Spec
import SlayerOS.Mapper.Proofs
import SlayerOS.Mapper.Protection
import SlayerOS.Mapper.Framebuffer
import SlayerOS.Paging.Rights
import SlayerOS.Ranges.Code
import SlayerOS.Ranges.Proofs
import SlayerOS.Ranges.Coverage
import SlayerOS.Ranges.Windows
import SlayerOS.Bootloader.Code
import SlayerOS.Bootloader.Sort
import SlayerOS.Frames.Init
import SlayerOS.Boot.Memory
import SlayerOS.Interrupts.Code
import SlayerOS.Interrupts.Spec
import SlayerOS.Interrupts.Gates
import SlayerOS.Interrupts.Dispatch
import SlayerOS.Interrupts.Stubs
import SlayerOS.Interrupts.Transparent
import SlayerOS.Interrupts.CrashFrame
import SlayerOS.Interrupts.Uacpi
import SlayerOS.Ioapic.Code
import SlayerOS.Ioapic.Set
import SlayerOS.Ioapic.Entries
import SlayerOS.Ioapic.Routes
import SlayerOS.Ioapic.Madt
import SlayerOS.Heap.Code
import SlayerOS.Heap.Spec
import SlayerOS.Heap.Layout
import SlayerOS.Heap.Alloc
import SlayerOS.Heap.Growth
import SlayerOS.Heap.Kmalloc
import SlayerOS.Heap.Kfree
import SlayerOS.Heap.Safety
import SlayerOS.Heap.Sizes
import SlayerOS.Heap.Refuse
import SlayerOS.Heap.Accounts
import SlayerOS.Heap.Coalesce
import SlayerOS.Heap.Aligned
import SlayerOS.Heap.Blocks
import SlayerOS.Heap.Inside
import SlayerOS.Boot.Supply
import SlayerOS.Taskman.Code
import SlayerOS.Taskman.Spec
import SlayerOS.Taskman.Links
import SlayerOS.Taskman.Sweep
import SlayerOS.Taskman.Select
import SlayerOS.Taskman.Ops
import SlayerOS.Taskman.Runs
import SlayerOS.Taskman.Heir
import SlayerOS.Taskman.Turns
import SlayerOS.Taskman.States
import SlayerOS.Taskman.Entries
import SlayerOS.Taskman.Handover
import SlayerOS.Taskman.Pids
import SlayerOS.Taskman.Switch
import SlayerOS.Taskman.Listing
import SlayerOS.Taskman.Fair
import SlayerOS.Taskman.Gone
import SlayerOS.Taskman.Memory
import SlayerOS.Mangle.Code
import SlayerOS.Mangle.Spec
import SlayerOS.Mangle.Proofs
import SlayerOS.Mangle.Decimal
import SlayerOS.Mangle.Ends
import SlayerOS.Mangle.Arrays
import SlayerOS.Mangle.Room
import SlayerOS.Mangle.Names
import SlayerOS.Mangle.Rounds
import SlayerOS.Mangle.Listed
import SlayerOS.Mangle.Classes
import SlayerOS.Mangle.Render
import SlayerOS.Mangle.Substitutions
import SlayerOS.Resolver.Code
import SlayerOS.Resolver.Safety
import SlayerOS.Resolver.Table
import SlayerOS.Resolver.Symbols
import SlayerOS.Resolver.Names
import SlayerOS.Dump.Code
import SlayerOS.Dump.Names
import SlayerOS.Dump.Tiles
import SlayerOS.Dump.Passes
import SlayerOS.Dump.Window
import SlayerOS.Dump.Backtrace
import SlayerOS.Interrupts.Handler
import SlayerOS.Pit.Code
import SlayerOS.Pit.Wait
import SlayerOS.Timer.Code
import SlayerOS.Timer.Sleep
import SlayerOS.Timer.Clock
import SlayerOS.Timer.Uptime
import SlayerOS.Timer.Line
import SlayerOS.Lapic.Code
import SlayerOS.Lapic.Calibrate
import SlayerOS.Lapic.Frequency
import SlayerOS.Lapic.Config
import SlayerOS.Kapi.Code
import SlayerOS.Kapi.Spec
import SlayerOS.Kapi.Handles
import SlayerOS.Tss.Code
import SlayerOS.Tss.Entry
