import CProfiler.Verification.Tags.Accounting
import CProfiler.Verification.Tags.Classes
import CProfiler.Verification.BbChop.Redisassembly
import CProfiler.Verification.BbChop.Exactness
import CProfiler.Verification.BbChop.Bounds
import CProfiler.Verification.BbChop.StaticBlocks
import CProfiler.Verification.Disass.Retry
import CProfiler.Verification.Disass.BasicBlocks
import CProfiler.Verification.Lines.Exact
import CProfiler.Verification.Lines.Independence
import CProfiler.Verification.Lines.UnitOrder
import CProfiler.Verification.Lines.SymbolFiles
import CProfiler.Verification.Lines.Listing
import CProfiler.Verification.Pivot.Interference
import CProfiler.Verification.Pivot.JoinOrder
import CProfiler.Verification.Pivot.Labels
import CProfiler.Verification.Combos.Items
import CProfiler.Verification.Elf.Addresses
import CProfiler.Verification.Filters.Bookkeeping
import CProfiler.Verification.Filters.Frames
import CProfiler.Verification.Filters.Restoring
import CProfiler.Verification.Filters.ColumnTrees
import CProfiler.Verification.Session.Displayed
import CProfiler.Verification.Session.Transposing
import CProfiler.Verification.Headers.Mirrors
import CProfiler.Verification.Headers.Resizing
import CProfiler.Verification.PinTools.Bbcount
import CProfiler.Verification.PinTools.Bbtrace
import CProfiler.Verification.Symbols.Classnames
import CProfiler.Verification.InstLists.Capacity
import CProfiler.Verification.InstLists.Slices
import CProfiler.Verification.InstLists.Indexing
import CProfiler.Verification.InstLists.Targets
import CProfiler.Verification.Elf.SectionOffsets
import CProfiler.Verification.Elf.SymbolText
import CProfiler.Verification.Elf.FunctionRanges
import CProfiler.Verification.Tags.Idempotence
import CProfiler.Verification.TimePlot.Levels
import CProfiler.Verification.Combos.DisabledRows
import CProfiler.Verification.Intervals.Runs
import CProfiler.Verification.Elf.SymbolLookup
import CProfiler.Verification.PinTools.MixFaults
