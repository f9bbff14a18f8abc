import QingStor.Lemmas.Relabel
import QingStor.Theorems.DownloadFinishes

/-!
# A download of an object that changes

The chunks of a download are asked for one by one, and nothing in a request names the version of the object. When the object is replaced
by others of its size while it is read, what is read is put together from versions, but no byte of it is out of place.
-/

namespace QingStor

variable {β : Type*}

namespace VersionsAux

variable {V : Set (List β)} {size : Nat}

/-! ## Placing bytes -/

variable {τ γ δ : Type*}

end VersionsAux

open VersionsAux

namespace VersionsAux

/-- A turn in which the first start finds one version of three bytes and every other start another one. -/
def turn : Round Nat :=
  ⟨fun i => if i = 0 then DownloadAux.serving [0, 1, 2] else DownloadAux.serving [5, 6, 7], [], DownloadAux.serving [5, 6, 7], true, true,
    [⟨0, 16⟩, ⟨1, 16⟩], [⟨0, none⟩, ⟨1, none⟩]⟩

end VersionsAux

end QingStor
