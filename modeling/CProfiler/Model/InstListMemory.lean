import Mathlib.Data.List.Basic
import CProfiler.Model.XedDisass

/-! The memory behind the instruction lists of `xed/xed_disass.c`: the slots that `malloc`
and `realloc` return, beside the capacity that the list records. -/

namespace CProfiler.Model

variable {ι : Type}

/-- `malloc` and `realloc`: whether a request of that many bytes is granted. None of more
than `PTRDIFF_MAX` bytes is. -/
structure Allocator where
  grants : ℕ → Bool
  bounded : ∀ {bytes}, grants bytes = true → bytes < 2 ^ 63

/-- An allocator that has memory for everything else. -/
def Allocator.ample : Allocator where
  grants bytes := bytes < 2 ^ 63
  bounded := of_decide_eq_true

/-- What ends the process, or leaves what C defines. -/
inductive Fault where
  /-- `exit(1)`: the memory asked for is not there. -/
  | exit
  /-- An access to a slot that is not allocated. -/
  | outside
  deriving DecidableEq, Repr

/-- `sizeof(xed_decoded_inst_t*) * slots`, in `size_t`. -/
def slotBytes (slots : ℕ) : ℕ := 8 * slots % 2 ^ 64

/-- The slots that an allocation for so many instructions really has. -/
def slotsIn (slots : ℕ) : ℕ := slotBytes slots / 8

/-- `inst_list_t` in memory: `instArray` holds every allocated slot, `none` where nothing
was written yet. The base of a list that `inst_list_init` has not seen is indeterminate. -/
structure RawList (ι : Type) where
  base : Option ℕ
  size : ℕ
  capacity : ℕ
  instArray : List (Option ι)

/-- `inst_list_init_size`. -/
def instListInitSize (m : Allocator) (base : Option ℕ) (initialSize : ℕ) :
    Except Fault (RawList ι) :=
  if m.grants (slotBytes initialSize) then
    .ok { base := base, size := 0, capacity := instListInitCapacity,
          instArray := List.replicate (slotsIn initialSize) none }
  else .error .exit

/-- `inst_list_init`, in memory. -/
def instListInitRaw (m : Allocator) (base : ℕ) : Except Fault (RawList ι) :=
  instListInitSize m (some base) instListInitCapacity

namespace RawList

/-- `inst_list_resize`: `realloc` keeps the slots that fit. -/
def resize (m : Allocator) (l : RawList ι) (newCapacity : ℕ) : Except Fault (RawList ι) :=
  if m.grants (slotBytes newCapacity) then
    .ok { l with
      instArray :=
        (l.instArray ++ List.replicate (slotsIn newCapacity) none).take (slotsIn newCapacity)
      capacity := newCapacity }
  else .error .exit

/-- The list with room for one more instruction, by its recorded capacity. -/
def withRoom (m : Allocator) (l : RawList ι) : Except Fault (RawList ι) :=
  if l.size = l.capacity then l.resize m ((l.capacity * 2 + 1) % 2 ^ 64) else .ok l

/-- `inst_array[size++] = inst`. -/
def write (l : RawList ι) (inst : ι) : Except Fault (RawList ι) :=
  if l.size < l.instArray.length then
    .ok { l with instArray := l.instArray.set l.size (some inst), size := l.size + 1 }
  else .error .outside

/-- `inst_list_append`. -/
def append (m : Allocator) (l : RawList ι) (inst : ι) : Except Fault (RawList ι) :=
  (l.withRoom m).bind (fun roomy => roomy.write inst)

/-- A sequence of appends. -/
def appendAll (m : Allocator) (l : RawList ι) (insts : List ι) : Except Fault (RawList ι) :=
  insts.foldlM (append m) l

@[simp] theorem appendAll_nil (m : Allocator) (l : RawList ι) : l.appendAll m [] = .ok l := rfl

theorem appendAll_cons (m : Allocator) (l : RawList ι) (inst : ι) (insts : List ι) :
    l.appendAll m (inst :: insts) =
      (l.append m inst).bind (fun r => r.appendAll m insts) := List.foldlM_cons

theorem appendAll_concat (m : Allocator) (l : RawList ι) (insts : List ι) (inst : ι) :
    l.appendAll m (insts ++ [inst]) = (l.appendAll m insts).bind (fun r => r.append m inst) := by
  simp only [appendAll, List.foldlM_append, List.foldlM_cons, List.foldlM_nil, bind_pure]
  rfl

/-- The instructions of the list, `inst_array[0]` to `inst_array[size-1]`. -/
def contents (l : RawList ι) : List (Option ι) := l.instArray.take l.size

end RawList

/-- The two ways to make a list. -/
inductive Creation where
  /-- `inst_list_init(list, base)`. -/
  | init (base : ℕ)
  /-- `inst_list_init_size(list, initial_size)`: what `__getitem__` makes of a slice. -/
  | initSize (initialSize : ℕ)

namespace Creation

/-- The number of slots that the initial `malloc` is asked for. -/
def requested : Creation → ℕ
  | init _ => instListInitCapacity
  | initSize initialSize => initialSize

/-- What the new list has in its `base`. -/
def base : Creation → Option ℕ
  | init base => some base
  | initSize _ => none

/-- The new list. -/
def run (m : Allocator) : Creation → Except Fault (RawList ι)
  | init base => instListInitRaw m base
  | initSize initialSize => instListInitSize m none initialSize

end Creation

end CProfiler.Model
