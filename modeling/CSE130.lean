import CSE130.Lib.Transition
import CSE130.Lib.WriteBack
import CSE130.Lab2.Condvar
import CSE130.Lab2.Preemption
import CSE130.Lab2.Donation
import CSE130.Lab2.Chain
import CSE130.Lab2.Revocation
import CSE130.Lab3.Cache
import CSE130.Lab3.UserMemory
import CSE130.Lab3.Descriptors
import CSE130.Lab3.Wait
import CSE130.Lab3.Contents
import CSE130.Lab3.Deletion
import CSE130.Assignment3.Cartman
import CSE130.Assignment4.Scheduler
import CSE130.Assignment4.Waiting
import CSE130.Lab3.Copies
import CSE130.Lab3.OpenInodes
import CSE130.Lab3.FileLifetimes
import CSE130.Lab2.RoundRobin
import CSE130.Lab3.Names
import CSE130.Lab3.UserFiles
import CSE130.Assignment5.LeastRecentlyUsed
import CSE130.Assignment5.SecondChance
import CSE130.Assignment2.Sort
import CSE130.Lab1.Timer
import CSE130.Lab3.Bitmap
import CSE130.Lab3.Hash
import CSE130.Lab3.Intq
import CSE130.Lab3.Malloc
import CSE130.Lab3.StackPage
import CSE130.Lab3.Components
import CSE130.Lab3.Reservation
import CSE130.Lab3.ZeroWrites
import CSE130.Lab3.Growth
import CSE130.Lab3.Creation
import CSE130.Lab3.Removal
import CSE130.Lab3.Listing
import CSE130.Lab3.Paging
import CSE130.Lab3.Splitting
import CSE130.Lab3.Denials
import CSE130.Lab3.FileSizes
import CSE130.Lab3.ElfLoad
import CSE130.Lab3.Execute
import CSE130.Lab3.ExecResult
import CSE130.Lab3.OpenTable
import CSE130.Lab3.Endings
import CSE130.Lab3.Persistence
import CSE130.Lab2.Interrupts
import CSE130.Lab2.SetPriority
import CSE130.Lab2.Yielding
import CSE130.Lab2.WakeOrder
import CSE130.Lab2.AcquireWindow
import CSE130.Assignment4.Quantum
import CSE130.Assignment4.Priorities
import CSE130.Assignment5.LeastFrequentlyUsed
import CSE130.Lab1.ReadyList
import CSE130.Lab1.WakeTime
import CSE130.Assignment1.MergeSort
import CSE130.Assignment6.Copy
import CSE130.Lab3.Ustar
import CSE130.Lab3.Realloc
import CSE130.Lab3.PageDirectory
import CSE130.Lab3.PageRelease
import CSE130.Lab3.Archives
import CSE130.Assignment6.Views
import CSE130.Lab3.Arithmetic
import CSE130.Lab3.Memmove
import CSE130.Lab3.Eviction
import CSE130.Lib.Raise
import CSE130.Lab2.Donate
import CSE130.Lab2.ListLinks
import CSE130.Lab2.ListSort
import CSE130.Lab2.ListUnique
import CSE130.Lab2.DonatorLinks
import CSE130.Lab2.BestWaiter
import CSE130.Lab3.FrameClock
import CSE130.Lab3.Transparency
import CSE130.Lab3.Stdlib
import CSE130.Lab3.Formats
import CSE130.Lab3.Partition
import CSE130.Lab3.Random
import CSE130.Assignment3.Manpage
import CSE130.Lab3.Vga
import CSE130.Lab3.Serial
import CSE130.Lab3.CommandLine
import CSE130.Lab3.Console
import CSE130.Lab3.Ide
import CSE130.Lab2.ListReverse
