import ExecutionFabric.Model.Records

/-!
# Explaining checkpoints

Explanations are rendered from the records alone. What they say about a checkpoint is a
third judgement beside those of the continuation validator and of the classifier.
-/
namespace ExecutionFabric

/-- What `checkpoint_resumability` answers for a checkpoint it finds nothing wrong with. -/
def resumableText : String := "resumable: generations are current and integrity metadata is present"

/-- Why a checkpoint cannot currently seed a continuation, in terms of durable facts. -/
def checkpointResumability (checkpoint : CheckpointRecord) (execution : ExecutionRecord) : String :=
  if checkpoint.state = .corrupt then "not resumable: integrity check failed"
  else if checkpoint.state = .unsupported then
    "not resumable: the checkpoint declares an unsupported feature"
  else if checkpoint.state = .superseded then
    "not resumable: superseded by a newer checkpoint and policy does not allow falling back"
  else if checkpoint.state = .revalidationRequired then
    "not resumable: a referenced generation changed and revalidation is required"
  else if checkpoint.state = .stale then
    "not resumable: a newer checkpoint exists and is preferred"
  else if checkpoint.state = .created then "not resumable: registered but not yet verified"
  else if checkpoint.execution ≠ execution.id then
    "not resumable: the checkpoint belongs to a different execution"
  else if checkpoint.contentHash = 0 then
    "not resumable: the checkpoint carries no content integrity digest"
  else if checkpoint.executionGeneration ≠ execution.generation then
    "not resumable: created for a previous execution generation"
  else if checkpoint.policyGeneration ≠ execution.policyGeneration then
    "not resumable: created under a policy generation that has been replaced"
  else resumableText

end ExecutionFabric
