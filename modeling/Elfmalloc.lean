import Elfmalloc.Basic
import Elfmalloc.SizeClasses
import Elfmalloc.LargeAlloc
import Elfmalloc.ElfMalloc
import Elfmalloc.Heap
import Elfmalloc.Global
import Elfmalloc.Abstract
