import TypedFuse.Backend.FileLock
import TypedFuse.Backend.MountOptions
import TypedFuse.Backend.Permissions
import TypedFuse.Backend.Xattr
import TypedFuse.Lib.Within
import TypedFuse.Path.Adapter
import TypedFuse.Runtime.HandleSafety
import TypedFuse.Runtime.Identity
import TypedFuse.Path.Discovery
import TypedFuse.Path.Epochs
import TypedFuse.Path.FailedReads
import TypedFuse.Path.Index
import TypedFuse.Path.Orphans
import TypedFuse.Path.Paging
import TypedFuse.Path.Recursion
import TypedFuse.Path.Streams
import TypedFuse.Path.Takeover
import TypedFuse.Path.Unlinked
import TypedFuse.Runtime.Fallback
import TypedFuse.Runtime.Naming
import TypedFuse.Session.ForgetBatch
import TypedFuse.Session.KernelRefs
import TypedFuse.Lib.Weigh
import TypedFuse.Memory.Filesystem
import TypedFuse.Memory.Links
import TypedFuse.Memory.Sections
import TypedFuse.Memory.Tree
import TypedFuse.Memory.Runs
