import Diffmonger.BackendDriver.Contents
import Diffmonger.BackendDriver.Linear
import Diffmonger.BackendDriver.Storage
import Diffmonger.CommandLineInterface
import Diffmonger.CommandLineInterface.Nodes
import Diffmonger.CommandLineInterface.Parameters
import Diffmonger.CommandLineInterface.Password
import Diffmonger.CommandLineInterface.Pruning
import Diffmonger.Controller.Breadcrumb
import Diffmonger.Controller.Clock
import Diffmonger.Controller.Completed
import Diffmonger.Controller.Contents
import Diffmonger.Controller.Dataset
import Diffmonger.Controller.Discovery
import Diffmonger.Controller.Durability
import Diffmonger.Controller.Encryption
import Diffmonger.Controller.Honest
import Diffmonger.Controller.Import
import Diffmonger.Controller.LatestTrusted
import Diffmonger.Controller.Listing
import Diffmonger.Controller.Orphan
import Diffmonger.Controller.Prune
import Diffmonger.Controller.Quarantine
import Diffmonger.Controller.Schedule
import Diffmonger.EncryptionUtil.Reading
import Diffmonger.FdOwner
import Diffmonger.Fenwick.Doubling
import Diffmonger.Formats
import Diffmonger.Ioutil.Consume
import Diffmonger.KeyPair.LifeCycle
import Diffmonger.Lib.Input
import Diffmonger.Lib.Occurrence
import Diffmonger.Lib.Rollback
import Diffmonger.Lib.Script
import Diffmonger.Parser
import Diffmonger.Parser.Arguments
import Diffmonger.Parser.Grammar
import Diffmonger.Parser.Rendering
import Diffmonger.PasswordBuffer
import Diffmonger.PasswordBuffer.Buffers
import Diffmonger.PasswordBuffer.Sentinel
import Diffmonger.RepositoryStructure.KeySlots
import Diffmonger.Restore
import Diffmonger.Restore.Creating
import Diffmonger.Restore.Dataset
import Diffmonger.Restore.Decrypted
import Diffmonger.Restore.Export
import Diffmonger.Restore.Keys
import Diffmonger.Restore.Lossless
import Diffmonger.Restore.Nodes
import Diffmonger.Restore.Payloads
import Diffmonger.Restore.Scratch
import Diffmonger.Serialisation.Canonical
import Diffmonger.Tree.Demise
import Diffmonger.Tree.Invariants
import Diffmonger.Trust.Spec
import Diffmonger.Zfs
import Diffmonger.ZfsDriver
import Diffmonger.ZfsDriver.Adoption
import Diffmonger.ZfsDriver.Contents
import Diffmonger.Lib.Pipeline
import Diffmonger.Controller.Processes
import Diffmonger.Lib.Locking
import Diffmonger.Restore.Concurrent
import Diffmonger.Parser.Simulation
import Diffmonger.Parser.ParameterHelper
import Diffmonger.CommandLineInterface.Main
import Diffmonger.CommandLineInterface.Retrospective
