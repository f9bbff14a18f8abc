import QingStor.Theorems.DownloadFinishes
import QingStor.Theorems.Carried

/-!
# What is written is what is read

An upload whose calls all report success, and then a download of the same size through the same context, whose transfers are answered
with what curl took of the parts, put together in the order the completion named them.
-/

namespace QingStor

namespace RoundTripAux

variable {β : Type*}

end RoundTripAux

namespace RoundTripAux

/-- json-c on the answer to the opening of an upload, and on the headers of an object of three bytes. -/
def json : JsonC where
  tokenerParse text :=
    if text = Sample.initAnswer then Sample.json.tokenerParse text
    else .object [(lit "Content-Type", .string (lit "text/plain")), (lit "Content-Length", .int 3),
      (lit "Last-Modified", .string (lit "Mon, 02 Jan 2017 15:04:05 GMT"))]
  toJsonString := Sample.json.toJsonString
  parseInt64 _ := 0

/-- A server that answers with the bytes of the range, and curl with all it needs. -/
def serving (content : List Byte) : StartEnv Byte where
  malloc := true
  easyInit := true
  signer := Sample.signer
  signs := true
  respond
    | some (.fromTo first last) => ⟨206, Lib.slice content first.toNat (last + 1 - first).toNat, .ok⟩
    | _ => ⟨200, content, .ok⟩

theorem serving_honest (content : List Byte) : (serving content).Honest content :=
  ⟨rfl, rfl, rfl, fun _ _ _ => ⟨List.prefix_refl _, fun _ => (by decide : 206 ≠ 0), fun _ _ => rfl⟩⟩

/-- A turn in which the first transfer is delivered whole and ends. -/
def turn (content : List Byte) : Round Byte :=
  ⟨fun _ => serving content, [], serving content, true, true, [⟨0, 16⟩], [⟨0, none⟩]⟩

end RoundTripAux

end QingStor
