import CourseProjects.Lib.Slots
import CourseProjects.Lib.SearchTree
import CourseProjects.BPlusTree.Missing
import CourseProjects.BPlusTree.Allocator
import CourseProjects.BPlusTree.Scans
import CourseProjects.BPlusTree.Rebalance
import CourseProjects.Lc2k.PipelineRefines
import CourseProjects.Lc2k.Simulator
import CourseProjects.Lc2k.Resolve
import CourseProjects.Xv6.Kernel
import CourseProjects.Xv6.Crews
import CourseProjects.Xv6.Exec
import CourseProjects.Xv6.Families
import CourseProjects.Xv6.Join
import CourseProjects.Xv6.Failing
import CourseProjects.Xv6.Create
import CourseProjects.Xv6.Fork
import CourseProjects.Xv6.Parents
import CourseProjects.FileSystem.Accounts
import CourseProjects.FileSystem.Boot
import CourseProjects.FileSystem.Consistency
import CourseProjects.FileSystem.Links
import CourseProjects.FileSystem.Ownership
import CourseProjects.FileSystem.Registry
import CourseProjects.FileSystem.NullPointers
import CourseProjects.FileSystem.Reboot
import CourseProjects.FileSystem.Checks
import CourseProjects.FileSystem.Traversal
import CourseProjects.FileSystem.UserCount
import CourseProjects.JoinOperation.HashJoin
import CourseProjects.JoinOperation.MergeJoin
import CourseProjects.Lib.Table
import CourseProjects.Registration.Domain
import CourseProjects.Registration.Averages
import CourseProjects.Xv6.Quantum
import CourseProjects.Xv6.Boost
import CourseProjects.Xv6.Selection
import CourseProjects.Xv6.Ring
import CourseProjects.Xv6.Sbrk
import CourseProjects.Sml.Formula
import CourseProjects.Sml.Metro
import CourseProjects.Sml.Pattern
import CourseProjects.Sml.Sieve
import CourseProjects.Mupl.Glet
import CourseProjects.Mupl.Hygiene
import CourseProjects.Mupl.Arrays
import CourseProjects.Bst.CheckBst
import CourseProjects.Lib.Slice
import CourseProjects.Prob2.Modes
import CourseProjects.Prob2.Streams
import CourseProjects.Storage.Capacity
import CourseProjects.Storage.CachedLog
import CourseProjects.Devices.Wakeups
import CourseProjects.Devices.Terminal
import CourseProjects.FileSystem.Files
import CourseProjects.Programs.Grep
import CourseProjects.Programs.Allocations
import CourseProjects.Paging.Spaces
